import MachineCode.Proofs.Labels.Layout
import MachineCode.Proofs.Records.Handlers

/-! Labels in finished methods. Whatever names a label of an operation leads to where the label is
placed first, and a method in which something names a label that is not placed is refused. -/
namespace MachineCode

open X64 Lower

/-! ### Operations in finished code -/

/-- What the code of an operation says about labels, in a finished method in which the operation
stands from `start` to `stop`. -/
def Operation.Leads (code : Array UInt8) (placed : Label → Nat → Prop) (start stop : Nat) :
    Operation → Prop
  | .label l => placed l start
  | .branch cond target =>
    ∃ q, placed target q ∧ JumpsAt code (cond.map .ofCondition) start (stop - start) q
  | .floatBranch cond target unordered => ∃ middle q u, placed target q ∧ placed unordered u ∧
    JumpsAt code (some .p) start (middle - start) u ∧
    JumpsAt code (some (.ofCondition cond.toUnsigned)) middle (stop - middle) q
  | .tableSwitch _ _ targets default =>
    (∃ offset n q, start ≤ offset ∧ offset + n ≤ stop ∧ placed default q ∧
      JumpsAt code (if targets = [] then none else some .a) offset n q) ∧
    ∀ i l, targets[i]? = some l → ∃ q, placed l q ∧
      let table := stop - tableEntrySize * targets.length
      Holds code (table + tableEntrySize * i) tableEntrySize (q - table)
  | _ => True

namespace Layout

variable {ops : List Operation} {paths : List SlowPath} {d d' : Draft} {p : Part}
  {parts front back : List Part} {l : Label} {code : Array UInt8}

theorem labelOffset_iff (h : Layout ops paths d parts d') (hl : l.index < labelCount ops)
    {offset : Nat} :
    d'.buffer.labelOffset l = some offset ↔ FirstPlaced parts l offset :=
  (BufferOp.labelOffset_eq_some h.run).trans (h.firstBind_iff hl)

theorem source_mem (h : Layout ops paths d parts d') (hp : p ∈ parts) {op : Operation}
    (hsource : p.source = .operation op) : op ∈ ops := by
  have hmem : p.source ∈ Source.prologue :: ops.map Source.operation ++ paths.map Source.slowPath :=
    h.sources ▸ List.mem_map_of_mem hp
  rw [hsource] at hmem
  simpa using hmem

theorem path_mem (h : Layout ops paths d parts d') (hp : p ∈ parts) {path : SlowPath}
    (hsource : p.source = .slowPath path) : path ∈ paths := by
  have hmem : p.source ∈ Source.prologue :: ops.map Source.operation ++ paths.map Source.slowPath :=
    h.sources ▸ List.mem_map_of_mem hp
  rw [hsource] at hmem
  simpa using hmem

theorem exists_source (h : Layout ops paths d parts d') {op : Operation} (hop : op ∈ ops) :
    ∃ p ∈ parts, p.source = .operation op := by
  have hmem : Source.operation op ∈ parts.map Part.source := by
    rw [h.sources]
    simp [hop]
  simpa using hmem

/-- A jump of a part goes to where its label is placed first. -/
theorem jumps (h : Layout ops paths d (front ++ p :: back) d') (hcode : d'.buffer.finish = .ok code)
    (hl : l.index < labelCount ops) (cond : Option Cond) (pre post : List BufferOp)
    (hsteps : p.steps = pre ++ cond.elim (.jmp l) (.jcc · l) :: post) :
    ∃ b b' q, BufferOp.runAll pre p.before.buffer = .ok () b ∧
      (cond.elim (BufferOp.jmp l) (.jcc · l)).run b = .ok () b' ∧
      BufferOp.runAll post b' = .ok () p.after.buffer ∧ FirstPlaced (front ++ p :: back) l q ∧
      JumpsAt code cond b.position (b'.position - b.position) q := by
  have hrun := (h.lowered p (by simp)).run
  rw [hsteps] at hrun
  obtain ⟨b, hpre, hrun⟩ := BufferOp.runAll_append.mp hrun
  obtain ⟨b', hstep, hpost⟩ := BufferOp.runAll_cons.mp hrun
  have hresolved := BufferOp.resolved_of_occurs (h.occurs hsteps hpre hstep) hcode
  have hjumps : BufferOp.Jumps (wholeSteps ops (front ++ p :: back)) b b' code cond l := by
    cases cond with
    | none => exact hresolved.1
    | some cond => exact hresolved.1
  obtain ⟨q, hq, hat⟩ := hjumps
  exact ⟨b, b', q, hpre, hstep, hpost, (h.firstBind_iff hl).mp hq, hat⟩

/-- An entry of a jump table leads to where its label is placed first. -/
theorem entry (h : Layout ops paths d (front ++ p :: back) d') (hcode : d'.buffer.finish = .ok code)
    (hl : l.index < labelCount ops) {pre : List BufferOp} {targets : List Label} {table i : Nat}
    (hsteps : p.steps = pre ++ targets.map (.tableEntry · table))
    (hstop : p.after.buffer.position = table + tableEntrySize * targets.length)
    (hi : targets[i]? = some l) : ∃ q, FirstPlaced (front ++ p :: back) l q ∧
      Holds code (table + tableEntrySize * i) tableEntrySize (q - table) := by
  have hrun := (h.lowered p (by simp)).run
  rw [hsteps] at hrun
  obtain ⟨b, hpre, hentries⟩ := BufferOp.runAll_append.mp hrun
  have htable := position_runAll_tableEntry hentries
  obtain ⟨hlt, hget⟩ := List.getElem?_eq_some_iff.mp hi
  have hsplit : targets = targets.take i ++ l :: targets.drop (i + 1) := by
    rw [← hget, ← List.drop_eq_getElem_cons hlt, List.take_append_drop]
  rw [hsplit, List.map_append, List.map_cons] at hentries
  obtain ⟨c, hc, hentries⟩ := BufferOp.runAll_append.mp hentries
  obtain ⟨c', hc', -⟩ := BufferOp.runAll_cons.mp hentries
  have hposition := position_runAll_tableEntry hc
  rw [List.length_take_of_le (Nat.le_of_lt hlt)] at hposition
  rw [hsplit, List.map_append, List.map_cons, ← List.append_assoc] at hsteps
  obtain ⟨q, hq, hholds⟩ := BufferOp.resolved_of_occurs
    (h.occurs hsteps (BufferOp.runAll_append.mpr ⟨b, hpre, hc⟩) hc') hcode
  have hc : c.position = table + tableEntrySize * i := by omega
  rw [hc] at hholds
  exact ⟨q, (h.firstBind_iff hl).mp hq, hholds⟩

/-- The operations of a finished method lead to where their labels are placed first. -/
theorem leads (h : Layout ops paths d (front ++ p :: back) d') (hcode : d'.buffer.finish = .ok code)
    {op : Operation} (hsource : p.source = .operation op) :
    op.Leads code (FirstPlaced (front ++ p :: back)) p.before.buffer.position
      p.after.buffer.position := by
  have hlowered := h.lowered p (by simp)
  have hop : op ∈ ops := h.source_mem (by simp) hsource
  have hspells := hlowered.spells op hsource
  have hlt : ∀ l ∈ op.labels, l.index < labelCount ops := fun l => lt_labelCount hop
  cases op with
  | label l =>
    have hwhole : wholeSteps ops (front ++ p :: back) =
        wholeSteps ops front ++ .bind l :: back.flatMap Part.steps := by
      simp [wholeSteps, show p.steps = [.bind l] from hspells]
    exact (h.labelOffset_iff (hlt l (by simp [Operation.labels]))).mp
      (BufferOp.labelOffset_of_bind (hwhole ▸ h.run) h.run_front)
  | branch cond target =>
    have hsteps :
        p.steps = [] ++ (cond.map Cond.ofCondition).elim (.jmp target) (.jcc · target) :: [] := by
      cases cond <;> exact hspells
    obtain ⟨b, b', q, ⟨⟩, -, ⟨⟩, hq, hat⟩ :=
      h.jumps hcode (hlt target (by simp [Operation.labels])) _ [] [] hsteps
    exact ⟨q, hq, hat⟩
  | floatBranch cond target unordered =>
    obtain ⟨b, b', u, ⟨⟩, hfirst, -, hu, hat⟩ := h.jumps hcode
      (hlt unordered (by simp [Operation.labels])) (some .p) [] _ hspells
    obtain ⟨c, c', q, hpre, -, ⟨⟩, hq, hat'⟩ := h.jumps hcode
      (hlt target (by simp [Operation.labels])) (some (.ofCondition cond.toUnsigned)) [_] [] hspells
    obtain ⟨c, hc, ⟨⟩⟩ := BufferOp.runAll_cons.mp hpre
    cases hfirst.symm.trans hc
    exact ⟨_, q, u, hq, hu, hat, hat'⟩
  | tableSwitch index low targets default =>
    obtain ⟨rfl, hsteps⟩ | ⟨hne, front', middle, table, hsteps, hstop⟩ := hspells
    · obtain ⟨b, b', q, ⟨⟩, hstep, ⟨⟩, hq, hat⟩ := h.jumps hcode
        (hlt default (by simp [Operation.labels])) none [] [] hsteps
      have hle := (BufferOp.grows_run _).position _ _ _ hstep
      exact ⟨⟨_, _, q, Nat.le_refl _, by omega, hq, hat⟩, fun i l hi => by cases hi⟩
    · rw [Operation.Leads, if_neg hne]
      refine ⟨?_, fun i l hi => ?_⟩
      · rw [List.append_assoc, List.cons_append] at hsteps
        obtain ⟨b, b', q, hpre, hstep, hpost, hq, hat⟩ := h.jumps hcode
          (hlt default (by simp [Operation.labels])) (some .a) front' _ hsteps
        have hle := (BufferOp.grows_run _).position _ _ _ hstep
        have hfront := BufferOp.position_le_of_runAll hpre
        have hback := BufferOp.position_le_of_runAll hpost
        exact ⟨b.position, _, q, hfront, by omega, hq, hat⟩
      · dsimp only
        rw [hstop, Nat.add_sub_cancel]
        exact h.entry hcode (hlt l (by simp [Operation.labels, List.mem_of_getElem? hi]))
          hsteps hstop hi
  | _ => trivial

end Layout

/-! ### Labels of a part's own -/

/-- The part is the use of a template, for which these are the labels. -/
def Part.Expands (p : Part) (x : Expansion) : Prop :=
  p.source = .operation (.template x.template x.operands x.info x.infoAfter) ∧
    x.labels = (List.range' p.before.buffer.labels.size x.template.labelCount).map Label.mk

/-- The code in place of the template is that of its fast path. -/
def Part.FastPath (p : Part) (x : Expansion) : Prop :=
  ∃ d d', d.buffer = (p.before.buffer.newLabels x.template.labelCount).2 ∧
    x.template.fastPath.forM (microOp x) d = .ok () d' ∧ d'.buffer = p.after.buffer

/-- The code of a template, in place and put off, uses labels of the part's own. -/
theorem Part.Lowered.expands {p : Part} {x : Expansion} (h : p.Lowered) (hx : p.Expands x) :
    (∀ l ∈ x.labels, p.Owns l) ∧ p.FastPath x := by
  obtain ⟨t, operands, labels, info, infoAfter⟩ := x
  obtain ⟨hsource, hlabels⟩ := hx
  change labels = (List.range' p.before.buffer.labels.size t.labelCount).map Label.mk at hlabels
  subst hlabels
  have hlower := h.lower
  rw [hsource] at hlower
  obtain ⟨d, hlower, hafter, -⟩ := operation_eq_ok hlower
  let started : Draft := { p.before with current := "xir" }
  have hmark : started.buffer.mark = none := h.mark
  change template t operands info infoAfter started = .ok () d at hlower
  obtain ⟨-, hle⟩ := template_eq_ok hmark hlower
  obtain ⟨d₁, hfast, hd⟩ := template_run hlower
  refine ⟨fun l hl => ?_, _, d₁, rfl, hfast, ?_⟩
  · obtain ⟨n, hn, rfl⟩ := List.mem_map.mp hl
    have := List.mem_range'_1.mp hn
    exact ⟨this.1, Nat.lt_of_lt_of_le this.2 (hafter ▸ hle)⟩
  · rw [hafter, hd]
    split <;> rfl

/-- A label that is made in a row of parts is one of a part's own. -/
theorem Chain.owns_of_makes {d d' : Draft} {ps : List Part} {pre : List BufferOp} {l : Label}
    (h : Chain d ps d') (hps : ∀ p ∈ ps, p.Lowered)
    (hmakes : BufferOp.Makes (ps.flatMap Part.steps) pre d.buffer l) : ∃ p ∈ ps, p.Owns l := by
  induction ps generalizing d pre with
  | nil =>
    obtain ⟨post, c, hops, -⟩ := hmakes
    simp at hops
  | cons p ps ih =>
    obtain ⟨post, c, hops, hrun, rfl⟩ := hmakes
    obtain ⟨⟨queue, hbefore⟩, h⟩ := h
    obtain ⟨hp, hps⟩ := List.forall_mem_cons.mp hps
    have hstart : p.before.buffer = d.buffer := by rw [hbefore]
    -- The label is made behind the part, or in it.
    have hlater : ∀ mid, pre = p.steps ++ mid → ps.flatMap Part.steps = mid ++ .newLabel :: post →
        ∃ q ∈ p :: ps, q.Owns c.newLabel.1 := by
      rintro mid rfl hrest
      obtain ⟨c', hc', hmid⟩ := BufferOp.runAll_append.mp hrun
      cases (hstart ▸ hp.run).symm.trans hc'
      obtain ⟨q, hq, howns⟩ := ih h hps ⟨post, c, hrest, hmid, rfl⟩
      exact ⟨q, List.mem_cons_of_mem _ hq, howns⟩
    obtain ⟨mid, hpre, hrest⟩ | ⟨mid, hsteps, hrest⟩ := List.append_eq_append_iff.mp hops
    · exact hlater mid hpre hrest
    · cases mid with
      | nil => exact hlater [] (by simpa using hsteps.symm) hrest.symm
      | cons step mid =>
        cases hrest
        have hrun' := hp.run
        rw [hsteps, hstart] at hrun'
        obtain ⟨c₀, hc₀, hrun'⟩ := BufferOp.runAll_append.mp hrun'
        cases hrun.symm.trans hc₀
        obtain ⟨c', hc', hrun'⟩ := BufferOp.runAll_cons.mp hrun'
        cases Step.modify_eq_ok.mp hc'
        refine ⟨p, List.mem_cons_self, hstart ▸ BufferOp.labels_le_of_runAll hrun, ?_⟩
        refine Nat.lt_of_lt_of_le ?_ (BufferOp.labels_le_of_runAll hrun')
        simp [CodeBuffer.newLabel]

/-- Labels in a finished method. -/
structure Hygienic (ops : List Operation) (parts : List Part) (final : CodeBuffer) (m : Method) :
    Prop where
  /-- The labels of parts are numbered behind all labels that operations name. -/
  above : ∀ p ∈ parts, ∀ l, p.Owns l → ∀ op ∈ ops, ∀ l' ∈ op.labels, l'.index < l.index
  /-- A label that is made is a part's own, and it is made once. -/
  made : ∀ pre l, BufferOp.Makes (wholeSteps ops parts) pre .empty l → (∃ p ∈ parts, p.Owns l) ∧
    ∀ pre', BufferOp.Makes (wholeSteps ops parts) pre' .empty l → pre' = pre
  /-- No two parts have labels in common. -/
  apart : parts.Pairwise fun p q => ∀ l, p.Owns l → ¬ q.Owns l
  /-- The labels of a template are those of the part that uses it, -/
  fast : ∀ p ∈ parts, ∀ x, p.Expands x → (∀ l ∈ x.labels, p.Owns l) ∧ p.FastPath x
  /-- also in the code that is put off. -/
  slow : ∀ q ∈ parts, ∀ x, q.source = .slowPath (.template x) → ∃ p ∈ parts, p.Expands x
  /-- A label that operations name is bound where it is placed first, -/
  bound : ∀ op ∈ ops, ∀ l ∈ op.labels, ∀ offset,
    final.labelOffset l = some offset ↔ FirstPlaced parts l offset
  /-- branches and jump tables lead there, -/
  leads : ∀ p ∈ parts, ∀ op, p.source = .operation op →
    op.Leads m.code (FirstPlaced parts) p.before.buffer.position p.after.buffer.position
  /-- and so do exception edges. -/
  handlers : ∀ x ∈ m.tables.exceptionHandlers, ∃ offset,
    x.handlerOffset = some offset ∧ FirstPlaced parts x.handler offset

/-! ### Completion -/

/-- What is left of a method behind its code. -/
def Lower.completion : Lower Method := do
  let d ← get
  let handlers ← ofExcept (resolveHandlers d.buffer d.tables.exceptionHandlers)
  let code ← ofExcept d.buffer.finish
  let journal := d.journal.finished code.toList d.data.size
  set { d with journal }
  return {
    name := d.name
    code
    data := d.data.bytes
    frameSize := d.frame.size
    entryAlignment := d.target.options.codeEntryAlignment
    tables := { d.tables with exceptionHandlers := handlers }
    ops := journal.ops
    slowPaths := journal.slowPaths }

theorem method_eq (constants : List DataConstant) (ops : List Operation) :
    method constants ops = body constants ops >>= fun _ => completion := by
  simp only [method, body, preparation, finish, bind_assoc]
  rfl

/-- The completion succeeds, or it finds a label that is not bound. -/
theorem completion_cases (d : Draft) :
    (∃ m d', completion d = .ok m d' ∧ d'.buffer = d.buffer ∧ d'.tables = d.tables ∧
      d'.data = d.data ∧ Completed m d) ∨
      ∃ l, completion d = .error (.unboundLabel l) d := by
  rw [completion, Step.get_bind]
  cases hhandlers : resolveHandlers d.buffer d.tables.exceptionHandlers with
  | error err =>
    obtain ⟨x, -, -, rfl⟩ := error_resolveHandlers hhandlers
    exact .inr ⟨x.handler, rfl⟩
  | ok handlers =>
    cases hcode : d.buffer.finish with
    | error err =>
      obtain ⟨l, rfl⟩ : ∃ l, err = .unboundLabel l := by
        unfold CodeBuffer.finish at hcode
        split at hcode <;> cases hcode
        exact ⟨_, rfl⟩
      exact .inr ⟨l, rfl⟩
    | ok code => exact .inl ⟨_, _, rfl, rfl, rfl, rfl, hcode, hhandlers, rfl, rfl⟩

theorem method_eq_ok {constants : List DataConstant} {ops : List Operation} {d d' : Draft}
    {m : Method} (h : method constants ops d = .ok m d') : ∃ d₁, body constants ops d = .ok () d₁ ∧
      d'.buffer = d₁.buffer ∧ d'.tables = d₁.tables ∧ Completed m d₁ := by
  rw [method_eq] at h
  obtain ⟨_, d₁, hbody, h⟩ := Step.bind_eq_ok.mp h
  obtain ⟨m', d'', hok, hbuffer, htables, -, hcompleted⟩ | ⟨l, herror⟩ := completion_cases d₁
  · cases hok.symm.trans h
    exact ⟨d₁, hbody, hbuffer, htables, hcompleted⟩
  · cases herror.symm.trans h

/-- A method is what its last draft holds. -/
theorem completed_of_method {constants : List DataConstant} {ops : List Operation} {d d' : Draft}
    {m : Method} (h : method constants ops d = .ok m d') : Completed m d' := by
  rw [method_eq] at h
  obtain ⟨_, d₁, -, h⟩ := Step.bind_eq_ok.mp h
  obtain ⟨m', d'', hok, hbuffer, htables, hdata, hcompleted⟩ | ⟨l, herror⟩ := completion_cases d₁
  · cases hok.symm.trans h
    exact ⟨hbuffer ▸ hcompleted.code, by rw [hbuffer, htables]; exact hcompleted.handlers,
      htables ▸ hcompleted.tables, hdata ▸ hcompleted.data⟩
  · cases herror.symm.trans h

/-- In a completed method every edge has the offset of its label, which is bound. -/
theorem Completed.edges {m : Method} {d : Draft} (h : Completed m d) :
    (∀ x ∈ d.tables.exceptionHandlers, ∃ offset, d.buffer.labelOffset x.handler = some offset) ∧
    ∀ y ∈ m.tables.exceptionHandlers, ∃ x ∈ d.tables.exceptionHandlers, y.handler = x.handler ∧
      y.handlerOffset = d.buffer.labelOffset x.handler := by
  obtain ⟨hrows, hresolved⟩ := Step.mem_of_mapM
    (Array.toList_mapM.symm.trans (congrArg (Array.toList <$> ·) h.handlers))
  constructor
  · intro x hx
    obtain ⟨y, -, hy⟩ := hrows x (Array.mem_toList_iff.mpr hx)
    split at hy
    · exact ⟨_, by assumption⟩
    · cases hy
  · intro y hy
    obtain ⟨x, hx, hy⟩ := hresolved y (Array.mem_toList_iff.mpr hy)
    split at hy
    · rename_i offset hoffset
      cases hy
      exact ⟨x, Array.mem_toList_iff.mp hx, rfl, hoffset.symm⟩
    · cases hy

/-! ### Methods -/

/-- The labels that the code of an operation refers to. -/
def Operation.targets : Operation → List Label
  | .branch _ target => [target]
  | .floatBranch _ target unordered => [target, unordered]
  | .tableSwitch _ _ targets default => targets ++ [default]
  | _ => []

/-- Where an operation leads to places, its targets are placed. -/
theorem Operation.Leads.placed {code : Array UInt8} {placed : Label → Nat → Prop} {start stop : Nat}
    {op : Operation} {l : Label} (h : op.Leads code placed start stop) (hl : l ∈ op.targets) :
    ∃ q, placed l q := by
  cases op with
  | branch cond target =>
    obtain ⟨q, hq, -⟩ := h
    obtain rfl := List.mem_singleton.mp hl
    exact ⟨q, hq⟩
  | floatBranch cond target unordered =>
    obtain ⟨middle, q, u, hq, hu, -⟩ := h
    obtain rfl | rfl : l = target ∨ l = unordered := by simpa [targets] using hl
    · exact ⟨q, hq⟩
    · exact ⟨u, hu⟩
  | tableSwitch index low targets default =>
    obtain ⟨⟨offset, n, q, -, -, hq, -⟩, hentries⟩ := h
    obtain hl | hl := List.mem_append.mp hl
    · obtain ⟨i, hi⟩ := List.getElem?_of_mem hl
      obtain ⟨q, hq, -⟩ := hentries i l hi
      exact ⟨q, hq⟩
    · obtain rfl := List.mem_singleton.mp hl
      exact ⟨q, hq⟩
  | _ => cases hl

variable {target : Target} {frame : Frame} {name : String} {id : Option UInt32}
  {constants : List DataConstant} {ops : List Operation} {paths : List SlowPath} {parts : List Part}
  {d d₁ d₂ d' : Draft} {m : Method} {l : Label}

theorem FirstPlaced.source_mem {offset : Nat} (h : FirstPlaced parts l offset)
    (hparts : Layout ops paths d parts d') : .label l ∈ ops := by
  obtain ⟨front, p, back, rfl, hsource, -⟩ := h
  exact hparts.source_mem (by simp) hsource

/-- A finished method with its layout is hygienic. -/
theorem Layout.hygienic (h : Layout ops paths d₁ parts d₂) (hm : Completed m d₂)
    (hlisted : ∀ x ∈ d₂.tables.exceptionHandlers, ∃ op ∈ ops, x.handler ∈ op.labels) :
    Hygienic ops parts d₂.buffer m where
  above p hp l hl op hop l' hl' := Nat.lt_of_lt_of_le (lt_labelCount hop hl') (h.le_of_owns hp hl)
  made pre l hmakes := by
    refine ⟨?_, fun pre' hmakes' => BufferOp.makes_unique hmakes' hmakes⟩
    obtain ⟨post, c, hsteps, hrun, hl⟩ := hmakes
    cases pre with
    | nil => cases hsteps
    | cons step pre =>
      obtain ⟨rfl, hrest⟩ := List.cons_eq_cons.mp hsteps
      obtain ⟨c', hc', hrun⟩ := BufferOp.runAll_cons.mp hrun
      cases h.start.symm.trans hc'
      exact h.chain.owns_of_makes h.lowered ⟨post, c, hrest, hrun, hl⟩
  apart := h.chain.pairwise_apart h.lowered
  fast p hp x hx := (h.lowered p hp).expands hx
  slow q hq x hsource := by
    obtain ⟨p, hp, op, hop, hputs, -⟩ := h.queued _ (h.path_mem hq hsource)
    exact ⟨p, hp, hputs.1 ▸ hop, hputs.2⟩
  bound op hop l hl offset := h.labelOffset_iff (lt_labelCount hop hl)
  leads p hp op hsource := by
    obtain ⟨front, back, rfl⟩ := List.append_of_mem hp
    exact h.leads hm.code hsource
  handlers y hy := by
    obtain ⟨x, hx, hhandler, hoffset⟩ := hm.edges.2 y hy
    obtain ⟨offset, hbound⟩ := hm.edges.1 x hx
    obtain ⟨op, hop, hl⟩ := hlisted x hx
    rw [hhandler]
    exact ⟨offset, hoffset.trans hbound, (h.labelOffset_iff (lt_labelCount hop hl)).mp hbound⟩

/-- A method that is finished has a layout in which its labels are hygienic. A label that is named
by a branch, a switch or a recorded edge and placed by no operation keeps the method from being
finished. -/
theorem labels_of_method (hd : Draft.start target frame name id = .ok d) :
    (∀ m d', method constants ops d = .ok m d' → ∃ d₁ paths parts d₂,
      preparation constants ops d = .ok () d₁ ∧ body constants ops d = .ok () d₂ ∧
      Layout ops paths d₁ parts d₂ ∧ d'.buffer = d₂.buffer ∧ Hygienic ops parts d'.buffer m) ∧
    ∀ l, .label l ∉ ops →
      ((∃ op ∈ ops, l ∈ op.targets) ∨
        ∃ d₂, body constants ops d = .ok () d₂ ∧ ∃ x ∈ d₂.tables.exceptionHandlers, x.handler = l) →
      (∀ m d', method constants ops d ≠ .ok m d') ∧
      ∀ d₂, body constants ops d = .ok () d₂ →
        ∃ l', method constants ops d = .error (.unboundLabel l') d₂ := by
  have hfinished : ∀ m d', method constants ops d = .ok m d' → ∃ d₁ paths parts d₂,
      preparation constants ops d = .ok () d₁ ∧ body constants ops d = .ok () d₂ ∧
      Layout ops paths d₁ parts d₂ ∧ d'.buffer = d₂.buffer ∧ Hygienic ops parts d'.buffer m := by
    intro m d' hm
    obtain ⟨d₂, hbody, hbuffer, htables, hcompleted⟩ := method_eq_ok hm
    obtain ⟨d₁, parts, paths, hprepare, hlayout⟩ := exists_layout hd hbody
    have hlisted : ∀ x ∈ d₂.tables.exceptionHandlers, ∃ op ∈ ops, x.handler ∈ op.labels :=
      fun x hx => handlers_of_method hd hm (htables ▸ hx)
    exact ⟨d₁, paths, parts, d₂, hprepare, hbody, hlayout, hbuffer,
      hbuffer ▸ hlayout.hygienic hcompleted hlisted⟩
  refine ⟨hfinished, fun l hl hnamed => ?_⟩
  have hrefused : ∀ m d', method constants ops d ≠ .ok m d' := by
    intro m d' hm
    obtain ⟨d₁, paths, parts, d₂, -, hbody, hlayout, hbuffer, hhygienic⟩ := hfinished m d' hm
    suffices hplaced : ∃ offset, FirstPlaced parts l offset by
      obtain ⟨offset, hplaced⟩ := hplaced
      exact hl (hplaced.source_mem hlayout)
    obtain ⟨op, hop, htarget⟩ | ⟨d₂', hbody', x, hx, rfl⟩ := hnamed
    · obtain ⟨p, hp, hsource⟩ := hlayout.exists_source hop
      exact (hhygienic.leads p hp op hsource).placed htarget
    · cases hbody.symm.trans hbody'
      obtain ⟨d₂', hbody', hbuffer', htables, hcompleted⟩ := method_eq_ok hm
      cases hbody.symm.trans hbody'
      obtain ⟨offset, hbound⟩ := hcompleted.edges.1 x hx
      obtain ⟨op, hop, hlabel⟩ := handlers_of_method hd hm (htables ▸ hx)
      exact ⟨offset, (hhygienic.bound op hop _ hlabel offset).mp (hbuffer ▸ hbound)⟩
  refine ⟨hrefused, fun d₂ hbody => ?_⟩
  rw [method_eq, Step.bind_of_ok hbody]
  obtain ⟨m, d', hok, -⟩ | hunbound := completion_cases d₂
  · exact absurd (by rw [method_eq, Step.bind_of_ok hbody, hok]) (hrefused m d')
  · exact hunbound

/-- A template used twice behind a branch, and a branch to nowhere. -/
theorem labels_of_method_twice :
    let skip : Template := ⟨"skip", [.jmp 0], some [.bind 0, .jmp 0], 1⟩
    let twice : List Operation :=
      [.branch none ⟨0⟩, .template skip [] none none, .label ⟨0⟩, .template skip [] none none]
    let astray : List Operation := [.branch none ⟨1⟩, .label ⟨0⟩]
    let journal := (Journal.start "twice" none []).log (.compiling "twice" none 0 0)
    let d : Draft :=
      ⟨⟨Options.standard, ⟨true, true⟩, 4096⟩, .empty, .empty, .empty, .empty, #[],
        journal, "prologue"⟩
    Draft.start d.target .empty "twice" none = .ok d ∧
      (∃ m d' d₁ paths parts d₂, method [] twice d = .ok m d' ∧ Layout twice paths d₁ parts d₂ ∧
        d'.buffer = d₂.buffer ∧ Hygienic twice parts d'.buffer m) ∧
      ∀ m d', method [] astray d ≠ .ok m d' := by
  intro skip twice astray journal d
  have hd : Draft.start d.target .empty "twice" none = .ok d := rfl
  refine ⟨hd, ?_, ?_⟩
  · have hok : Step.succeeds (fun _ _ => true) (method [] twice d) = true := by decide +kernel
    obtain ⟨m, d', hm, -⟩ := Step.exists_of_succeeds hok
    obtain ⟨d₁, paths, parts, d₂, -, -, hlayout, hbuffer, hhygienic⟩ :=
      (labels_of_method hd).1 m d' hm
    exact ⟨m, d', d₁, paths, parts, d₂, hm, hlayout, hbuffer, hhygienic⟩
  · have hunplaced : Operation.label ⟨1⟩ ∉ astray := by simp [astray]
    exact ((labels_of_method hd).2 ⟨1⟩ hunplaced (.inl ⟨.branch none ⟨1⟩, by simp [astray], by
      simp [Operation.targets]⟩)).1

end MachineCode
