import MachineCode.Proofs.Execution.Placement
import MachineCode.Proofs.Records.Counts

/-! Slow paths. The code that operations put off follows the body of the method, a piece for each
such operation and in their order; it may be asked for as often as one likes before the method is
complete. -/
namespace MachineCode

open X64 Lower Chunk

/-! ### Counting -/

/-- Everything is allowed but counting. -/
def Effect.uncounting : Effect :=
  { Effect.naming (fun _ => True) (fun _ => True) (fun _ => True) (fun _ =>
    True) with accounts := False }

theorem open_uncounting : Effect.uncounting.Open :=
  ⟨fun _ => trivial, fun _ => trivial, fun _ _ => trivial, trivial⟩

theorem fresh_uncounting (n : Nat) : Effect.uncounting.Fresh n :=
  ⟨fun _ _ => trivial, fun _ _ => trivial⟩

theorem MicroOp.within_uncounting {C : Context} (operands : List Operand) (op : MicroOp) :
    op.Within C .uncounting operands := by
  cases op with
  | pointerLoad | pointerLoadDisp => exact fun _ _ _ _ => trivial
  | _ => trivial

theorem does_lower_uncounting (C : Context) (op : Operation) : Does C .uncounting (lower op) := by
  refine does_lower (fresh_uncounting _) (open_uncounting.within ?_)
  exact ⟨fun _ _ => trivial, fun _ _ => trivial, fun _ _ => trivial, fun _ _ _ _ _ _ => trivial,
    fun _ _ _ _ _ _ _ _ _ _ _ _ _ => trivial, fun _ operands _ _ _ op _ =>
      op.within_uncounting operands,
    fun _ _ _ _ _ _ _ => trivial⟩

theorem Expansion.within_uncounting {C : Context} (x : Expansion) : x.Within C .uncounting where
  free := open_uncounting
  info _ _ _ _ := trivial
  infoAfter _ _ _ _ := trivial
  fast op _ := op.within_uncounting x.operands
  slow op _ := op.within_uncounting x.operands
  binds _ _ := trivial
  refers _ _ := trivial

variable {d d' : Draft}

theorem counts_operation {op : Operation} (hmark : d.buffer.mark = none)
    (hrun : operation op d = .ok () d') :
    d'.journal.counts = (d.journal.ops + 1, d.journal.slowPaths) := by
  unfold operation at hrun
  obtain ⟨_, d₀, ⟨⟩, hrun⟩ := Step.bind_eq_ok.mp hrun
  obtain ⟨start, d₁, ⟨⟩, hrun⟩ := Step.bind_eq_ok.mp hrun
  obtain ⟨_, d₂, h₂, hrun⟩ := Step.bind_eq_ok.mp hrun
  obtain ⟨stop, d₃, ⟨⟩, hrun⟩ := Step.bind_eq_ok.mp hrun
  cases Step.modify_eq_ok.mp hrun
  let started : Draft := { d with current := op.name }
  have hstarted : (Context.of started).Holds started := Context.holds_of hmark
  have h₂ : lower op started = .ok () d₂ := h₂
  have hsame := (does_lower_uncounting _ op).counts_eq not_false hstarted h₂
  obtain ⟨hops, hpaths⟩ := Prod.mk.inj hsame
  exact Prod.ext (congrArg (· + 1) hops) hpaths

/-- The code of a template that was put off is that of its micro-operations, with padding behind
it. -/
theorem templateSlowPath_run {x : Expansion} (hrun : slowPath (.template x) d = .ok () d') :
    ∃ e stop, (x.template.slowPath.getD []).forM (microOp x)
      { d with current := "xir" } = .ok () e ∧
      d' = { e with
        buffer := e.buffer.append (nops 1)
        journal := e.journal.slowPath x.template.name d.buffer.position stop } := by
  unfold slowPath at hrun
  obtain ⟨start, d₀, ⟨⟩, hrun⟩ := Step.bind_eq_ok.mp hrun
  obtain ⟨_, d₁, ⟨⟩, hrun⟩ := Step.bind_eq_ok.mp hrun
  obtain ⟨_, d₂, h₂, hrun⟩ := Step.bind_eq_ok.mp hrun
  obtain ⟨name, d₃, ⟨⟩, hrun⟩ := Step.bind_eq_ok.mp hrun
  obtain ⟨stop, d₄, ⟨⟩, hrun⟩ := Step.bind_eq_ok.mp hrun
  obtain ⟨_, e, he, h₂⟩ := Step.bind_eq_ok.mp h₂
  cases emitBytes_eq_ok.mp h₂
  exact ⟨e, _, he, (Step.modify_eq_ok.mp hrun).symm⟩

theorem does_microOps_uncounting (C : Context) (x : Expansion) (ops : List MicroOp) :
    Does C .uncounting (ops.forM (microOp x)) := does_forM fun op _ =>
  does_microOp (fresh_uncounting _) x.within_uncounting (op.within_uncounting _)

theorem counts_slowPath {path : SlowPath} (hmark : d.buffer.mark = none)
    (hrun : slowPath path d = .ok () d') :
    d'.journal.counts = (d.journal.ops, d.journal.slowPaths + 1) := by
  cases path with
  | template x =>
    obtain ⟨e, stop, he, rfl⟩ := templateSlowPath_run hrun
    let started : Draft := { d with current := "xir" }
    have hstarted : (Context.of started).Holds started := Context.holds_of hmark
    have he : (x.template.slowPath.getD []).forM (microOp x) started = .ok () e := he
    have hsame := (does_microOps_uncounting _ x _).counts_eq not_false hstarted he
    obtain ⟨hops, hpaths⟩ := Prod.mk.inj hsame
    exact Prod.ext hops (congrArg (· + 1) hpaths)
  | convertFixup entry resume src dst double long =>
    unfold slowPath at hrun
    obtain ⟨start, d₀, ⟨⟩, hrun⟩ := Step.bind_eq_ok.mp hrun
    obtain ⟨_, d₁, ⟨⟩, hrun⟩ := Step.bind_eq_ok.mp hrun
    obtain ⟨_, d₂, h₂, hrun⟩ := Step.bind_eq_ok.mp hrun
    obtain ⟨name, d₃, ⟨⟩, hrun⟩ := Step.bind_eq_ok.mp hrun
    obtain ⟨stop, d₄, ⟨⟩, hrun⟩ := Step.bind_eq_ok.mp hrun
    cases Step.modify_eq_ok.mp hrun
    let started : Draft := { d with current := "convert" }
    have hstarted : (Context.of started).Holds started := Context.holds_of hmark
    have h₂ : convertFixup entry resume src dst double long started = .ok () d₂ := h₂
    have hfixup : Does (Context.of started) .uncounting
        (convertFixup entry resume src dst double long) :=
      does_convertFixup (fresh_uncounting _) trivial trivial trivial
    have hsame := hfixup.counts_eq not_false hstarted h₂
    obtain ⟨hops, hpaths⟩ := Prod.mk.inj hsame
    exact Prod.ext hops (congrArg (· + 1) hpaths)

namespace Source

def isOperation : Source → Bool
  | operation _ => true
  | _ => false

def isSlowPath : Source → Bool
  | slowPath _ => true
  | _ => false

/-- What a source counts for. -/
theorem counts_lower {s : Source} (hmark : d.buffer.mark = none) (hrun : s.lower d = .ok () d') :
    d'.journal.counts =
      (d.journal.ops + [s].countP isOperation, d.journal.slowPaths + [s].countP isSlowPath) := by
  cases s with
  | prologue =>
    have hprologue : Does (Context.of d) .uncounting Lower.prologue :=
      does_prologue open_uncounting fun _ _ => trivial
    exact hprologue.counts_eq not_false (Context.holds_of hmark) hrun
  | operation op => exact counts_operation hmark hrun
  | slowPath path => exact counts_slowPath hmark hrun

end Source

/-! ### What operations put off -/

/-- A truncation puts off its fix-up, and a template its slow path. -/
def Operation.hasSlowPath : Operation → Bool
  | .convert f _ _ => f.truncation?.isSome
  | .template t _ _ _ => t.slowPath.isSome
  | _ => false

/-- The code that the operation puts off; there are `n` labels before. -/
def Operation.slowPath? (n : Nat) : Operation → Option SlowPath
  | .convert f src dst => do
    let (double, long) ← f.truncation?
    return .convertFixup ⟨n⟩ ⟨n + 1⟩ (← xmm? src) (← gpr? dst) double long
  | .template t operands info infoAfter =>
    if t.slowPath.isSome then
      some (.template ⟨t, operands, (List.range' n t.labelCount).map Label.mk, info, infoAfter⟩)
    else none
  | _ => none

/-- An operation puts off just its slow path. -/
theorem pending_of_operation {op : Operation} (hmark : d.buffer.mark = none)
    (hrun : operation op d = .ok () d') :
    d'.pending.toList = d.pending.toList ++ (op.slowPath? d.buffer.labels.size).toList ∧
      (op.slowPath? d.buffer.labels.size).isSome = op.hasSlowPath := by
  obtain ⟨d₁, hlower, -, hpending⟩ := operation_eq_ok hrun
  rw [hpending]
  let started : Draft := { d with current := op.name }
  have hmark : started.buffer.mark = none := hmark
  change lower op started = .ok () d₁ at hlower
  cases op with
  | convert f src dst =>
    change convert f src dst started = .ok () d₁ at hlower
    obtain ⟨double, long, hf, htruncate⟩ | ⟨hf, hnothing⟩ := convert_cases f src dst
    · rw [htruncate] at hlower
      obtain ⟨s, g, hs, hg, hpush, -⟩ := truncate_eq_ok hmark hlower
      rw [hpush, Array.toList_push]
      simp [Operation.slowPath?, Operation.hasSlowPath, hf, hs, hg, started]
    · rw [hnothing started d₁ hmark hlower]
      simp [Operation.slowPath?, Operation.hasSlowPath, hf, started]
  | template t operands info infoAfter =>
    rw [(template_eq_ok hmark hlower).1]
    by_cases hslow : t.slowPath.isSome
    · simp [Operation.slowPath?, Operation.hasSlowPath, hslow, started]
    · simp [Operation.slowPath?, Operation.hasSlowPath, hslow, started]
  | _ =>
    obtain h | ⟨path, hputs, -⟩ := putsOff_of_operation hmark hrun
    · rw [← hpending, h]
      exact ⟨(List.append_nil _).symm, rfl⟩
    · cases path with
      | convertFixup entry resume src dst double long =>
        obtain ⟨⟨_, _, _, hop⟩, -⟩ := hputs
        cases hop
      | template x => cases hputs.1

def Source.hasSlowPath : Source → Bool
  | operation op => op.hasSlowPath
  | _ => false

/-! ### Parts in a row -/

namespace Part

/-- Offsets of the first byte of the part and of the one behind the last. -/
def start (p : Part) : Nat := p.before.buffer.position

def stop (p : Part) : Nat := p.after.buffer.position

/-- The code that the part puts off. -/
def slowPath? (p : Part) : Option SlowPath :=
  match p.source with
  | .operation op => op.slowPath? p.before.buffer.labels.size
  | _ => none

theorem Lowered.pending {p : Part} (h : p.Lowered) :
    p.after.pending.toList = p.before.pending.toList ++ p.slowPath?.toList ∧
      p.slowPath?.isSome = p.source.hasSlowPath := by
  obtain ⟨s, d, d', steps⟩ := p
  cases s with
  | operation op => exact pending_of_operation h.mark h.lower
  | prologue | slowPath path =>
    obtain hsame | ⟨path, ⟨⟨op, hop, -⟩, -⟩⟩ := pending_of_lower h.mark h.lower steps
    · rw [hsame]
      exact ⟨(List.append_nil _).symm, rfl⟩
    · cases hop

end Part

/-- The parts fill the code from `start` to `stop`, each behind the one before. -/
def Abuts : (start : Nat) → List Part → (stop : Nat) → Prop
  | start, [], stop => start = stop
  | start, p :: ps, stop => p.start = start ∧ p.start ≤ p.stop ∧ Abuts p.stop ps stop

theorem Chain.abuts {ps : List Part} (h : Chain d ps d') (hps : ∀ p ∈ ps, p.Lowered) :
    Abuts d.buffer.position ps d'.buffer.position := by
  induction ps generalizing d with
  | nil =>
    obtain ⟨queue, rfl⟩ := h
    rfl
  | cons p ps ih =>
    obtain ⟨⟨queue, hbefore⟩, h⟩ := h
    obtain ⟨hp, hps⟩ := List.forall_mem_cons.mp hps
    refine ⟨?_, BufferOp.position_le_of_runAll hp.run, ih h hps⟩
    rw [Part.start, hbefore]

/-- The sources are lowered one after the other; each puts off its slow path and is counted. -/
structure Counted (ss : List Source) (d : Draft) (ps : List Part) (d' : Draft) : Prop
    extends Parted ss d ps d' where
  mark : d'.buffer.mark = none
  pending : d'.pending.toList = d.pending.toList ++ ps.filterMap Part.slowPath?
  counts : d'.journal.counts = (d.journal.ops + ss.countP Source.isOperation,
    d.journal.slowPaths + ss.countP Source.isSlowPath)

theorem exists_counted {ss : List Source} (hmark : d.buffer.mark = none)
    (hrun : ss.forM Source.lower d = .ok () d') : ∃ ps, Counted ss d ps d' := by
  induction ss generalizing d with
  | nil =>
    cases hrun
    exact ⟨[], ⟨⟨⟨_, rfl⟩, rfl, by simp⟩, hmark, by simp, rfl⟩⟩
  | cons s ss ih =>
    obtain ⟨_, d₁, h₁, hrun⟩ := Step.bind_eq_ok.mp hrun
    obtain ⟨p, rfl, rfl, hp, -, hmark₁⟩ := parted_lower hmark h₁
    obtain ⟨ps, hps⟩ := ih hmark₁ hrun
    have hlowered := hp.lowered p (List.mem_singleton_self p)
    have hcounts := Source.counts_lower hmark h₁
    obtain ⟨hops, hpaths⟩ := Prod.mk.inj hcounts
    refine ⟨[p] ++ ps, ⟨hp.append hps.toParted, hps.mark, ?_, ?_⟩⟩
    · rw [hps.pending, hlowered.pending.1, List.append_assoc, List.filterMap_append]
      rfl
    · rw [hps.counts, ← List.singleton_append, List.countP_append, List.countP_append,
        ← Nat.add_assoc, ← Nat.add_assoc]
      exact Prod.ext (congrArg (· + _) hops) (congrArg (· + _) hpaths)

/-- Code that was put off puts nothing off. -/
theorem counted_slowPaths (hmark : d.buffer.mark = none) (hrun : slowPaths d = .ok () d') :
    ∃ ps, Counted (d.pending.toList.map .slowPath) { d with pending := #[] } ps d' ∧
      d'.pending = #[] := by
  obtain ⟨ps, hps⟩ := exists_counted (d := { d with pending := #[] }) hmark (slowPaths_eq_ok hrun)
  refine ⟨ps, hps, ?_⟩
  have hnone : ps.filterMap Part.slowPath? = [] := by
    refine List.filterMap_eq_nil_iff.mpr fun p hp => ?_
    have hmem : p.source ∈ d.pending.toList.map Source.slowPath :=
      hps.sources ▸ List.mem_map_of_mem hp
    obtain ⟨path, -, hpath⟩ := List.mem_map.mp hmem
    rw [Part.slowPath?, ← hpath]
  have hpending := hps.pending
  rw [hnone] at hpending
  exact Array.toList_inj.mp hpending

/-! ### Emptying the queue -/

/-- Ask `n` times for the code that was put off. -/
def Lower.drain : Nat → Lower Unit
  | 0 => pure ()
  | n + 1 => do
    slowPaths
    drain n

/-- A method for which the code that was put off is asked for `n` times before it is complete. -/
def Lower.methodDraining (n : Nat) (constants : List DataConstant) (ops : List Operation) :
    Lower Method := do
  addConstants constants
  reserveLabels (labelCount ops)
  prologue
  ops.forM operation
  drain n
  finish

theorem drain_one : drain 1 = slowPaths := bind_pure_unit

theorem slowPaths_of_empty (h : d.pending = #[]) : slowPaths d = .ok () d := by
  obtain ⟨target, frame, buffer, data, tables, pending, journal, current⟩ := d
  cases h
  rfl

theorem drain_of_empty (h : d.pending = #[]) (n : Nat) : drain n d = .ok () d := by
  induction n with
  | zero => rfl
  | succ n ih =>
    rw [drain, Step.bind_of_ok (slowPaths_of_empty h)]
    exact ih

theorem finish_eq : finish = slowPaths >>= fun _ => completion := rfl

/-- Once the queue is empty, there is nothing more to come. -/
theorem drain_finish (hmark : d.buffer.mark = none) (n : Nat) :
    (drain n >>= fun _ => finish) d = (slowPaths >>= fun _ => completion) d := by
  cases n with
  | zero => rfl
  | succ n =>
    rw [drain, bind_assoc]
    cases hslow : slowPaths d with
    | error err d' => rw [Step.bind_of_error hslow, Step.bind_of_error hslow]
    | ok u d' =>
      obtain ⟨ps, -, hempty⟩ := counted_slowPaths hmark hslow
      rw [Step.bind_of_ok hslow, Step.bind_of_ok hslow, Step.bind_of_ok (drain_of_empty hempty n),
        finish_eq, Step.bind_of_ok (slowPaths_of_empty hempty)]

/-- A method up to the code that is put off. -/
def Lower.front (constants : List DataConstant) (ops : List Operation) : Lower Unit := do
  preparation constants ops
  (Source.prologue :: ops.map .operation).forM Source.lower

theorem methodDraining_eq (n : Nat) (constants : List DataConstant) (ops : List Operation) :
    methodDraining n constants ops = front constants ops >>= fun _ =>
      drain n >>= fun _ => finish := by
  rw [front, List.forM_eq_forM, List.forM_cons, List.forM_map, bind_assoc, bind_assoc]
  simp only [methodDraining, preparation, bind_assoc]
  rfl

theorem method_eq_front (constants : List DataConstant) (ops : List Operation) :
    method constants ops = front constants ops >>= fun _ => slowPaths >>= fun _ => finish := by
  rw [front, List.forM_eq_forM, List.forM_cons, List.forM_map, bind_assoc, bind_assoc]
  simp only [method, preparation, bind_assoc]
  rfl

variable {target : Target} {frame : Frame} {name : String} {id : Option UInt32}
  {constants : List DataConstant} {ops : List Operation} {m : Method}

theorem counts_start
    (hd : Draft.start target frame name id = .ok d) : d.journal.counts = (0, 0) := by
  unfold Draft.start at hd
  split at hd
  · cases hd
  · split at hd
    · cases hd
      rfl
    · cases hd

/-- In front of the code that is put off stand the prologue and the operations. -/
theorem counted_front (hd : Draft.start target frame name id = .ok d)
    (hrun : front constants ops d = .ok () d') : ∃ (first : Draft) (ps : List Part),
      Counted (.prologue :: ops.map .operation) first ps d' ∧ first.pending = #[] ∧
      first.buffer.position = 0 ∧ first.journal.counts = (0, 0) ∧ ∃ cs, Sound cs first := by
  obtain ⟨_, first, hprepare, hrun⟩ := Step.bind_eq_ok.mp hrun
  obtain ⟨hreserved, hpending⟩ := preparation_eq_ok hd hprepare
  have hmark : first.buffer.mark = none := (BufferOp.grows_run _).mark _ _ _ hreserved
  obtain ⟨ps, hps⟩ := exists_counted hmark hrun
  have hdoes : Does (Context.of d) .uncounting (preparation constants ops) := does_preparation _ _
  obtain ⟨journal, hstart⟩ := Draft.start_eq_ok hd
  have hholds : (Context.of d).Holds d := Context.holds_of (by rw [hstart]; rfl)
  refine ⟨first, ps, hps, hpending, ?_, ?_, ?_⟩
  · rw [CodeBuffer.reserveLabels_eq_ok hreserved]
    rfl
  · rw [hdoes.counts_eq not_false hholds hprepare, counts_start hd]
  · obtain ⟨cs, hs, -⟩ := hdoes.adds hholds hprepare (Lower.sound_start hd)
    exact ⟨cs, hs⟩

/-- How often the code that was put off is asked for does not matter. -/
theorem methodDraining_apply (hd : Draft.start target frame name id = .ok d) (n : Nat) :
    methodDraining n constants ops d = method constants ops d := by
  rw [methodDraining_eq, method_eq_front, ← drain_one]
  cases hfront : front constants ops d with
  | error err d' => rw [Step.bind_of_error hfront, Step.bind_of_error hfront]
  | ok u d' =>
    obtain ⟨first, ps, hps, -⟩ := counted_front hd hfront
    rw [Step.bind_of_ok hfront, Step.bind_of_ok hfront, drain_finish hps.mark n]
    exact (drain_finish hps.mark 1).symm

/-! ### The code of a method -/

/-- The part is no slow path of a template, or its code is that of the micro-operations with a byte
of padding behind. -/
def Part.Padded (p : Part) (new : List Chunk) : Prop :=
  ∀ x, p.source = .slowPath (.template x) → ∃ e front,
    (x.template.slowPath.getD []).forM (microOp x) { p.before with current := "xir" } = .ok () e ∧
    p.stop = e.buffer.position + 1 ∧ new = front ++ [.nop 1]

theorem Part.Lowered.adds {p : Part} (h : p.Lowered) {pre : List Chunk} (hs : Sound pre p.before) :
    ∃ new, Sound (pre ++ new) p.after ∧ p.Padded new := by
  by_cases hsource : ∃ x, p.source = .slowPath (.template x)
  · obtain ⟨x, hx⟩ := hsource
    have hlower := h.lower
    rw [hx] at hlower
    obtain ⟨e, stop, he, hafter⟩ := templateSlowPath_run hlower
    let started : Draft := { p.before with current := "xir" }
    have hstarted : (Context.of started).Holds started := Context.holds_of h.mark
    have hbefore : Sound pre started := { hs with }
    obtain ⟨front, hs', -⟩ :=
      (does_microOps_uncounting (Context.of started) x _).adds hstarted he hbefore
    have hone : ∀ n ∈ [1], 0 < n ∧ n ≤ 8 := by simp
    have hpadded : Sound (pre ++ front ++ [.nop 1]) _ := hs'.padding hone
    refine ⟨front ++ [.nop 1], ?_, ?_⟩
    · rw [hafter, ← List.append_assoc]
      exact { hpadded with }
    · intro y hy
      cases hx.symm.trans hy
      refine ⟨e, front, he, ?_, rfl⟩
      rw [Part.stop, hafter]
      exact CodeBuffer.position_append _ _
  · obtain ⟨new, hs', -⟩ := (p.source.does_lower p.before).adds (Context.holds_of h.mark) h.lower hs
    exact ⟨new, hs', fun x hx => absurd ⟨x, hx⟩ hsource⟩

theorem countP_isOperation (ops : List Operation) :
    (Source.prologue :: ops.map .operation).countP Source.isOperation = ops.length := by
  simp [List.countP_map, Function.comp_def, Source.isOperation]

theorem countP_isSlowPath (ops : List Operation) :
    (Source.prologue :: ops.map .operation).countP Source.isSlowPath = 0 := by
  simp [List.countP_map, Function.comp_def, Source.isSlowPath]

theorem countP_slowPaths (paths : List SlowPath) :
    (paths.map Source.slowPath).countP Source.isOperation = 0 ∧
      (paths.map Source.slowPath).countP Source.isSlowPath = paths.length := by
  simp [List.countP_map, Function.comp_def, Source.isOperation, Source.isSlowPath]

/-- As many pieces of code are put off as there are operations with a slow path. -/
theorem length_slowPaths {ps : List Part} (hps : ∀ p ∈ ps, p.Lowered)
    (hsources : ps.map Part.source = ops.map .operation) :
    (ps.filterMap Part.slowPath?).length = (ops.filter Operation.hasSlowPath).length := by
  induction ps generalizing ops with
  | nil =>
    obtain rfl := List.map_eq_nil_iff.mp hsources.symm
    rfl
  | cons p ps ih =>
    cases ops with
    | nil => cases hsources
    | cons op ops =>
      obtain ⟨hp, hps⟩ := List.forall_mem_cons.mp hps
      obtain ⟨hsource, hsources⟩ := List.cons.inj hsources
      have hsome := hp.pending.2
      rw [hsource] at hsome
      change p.slowPath?.isSome = op.hasSlowPath at hsome
      cases hpath : p.slowPath? with
      | none =>
        rw [hpath] at hsome
        rw [List.filterMap_cons_none hpath, List.filter_cons_of_neg (by simp [← hsome])]
        exact ih hps hsources
      | some path =>
        rw [hpath] at hsome
        rw [List.filterMap_cons_some hpath, List.filter_cons_of_pos (by simp [← hsome])]
        exact congrArg (· + 1) (ih hps hsources)

theorem completion_eq_ok (h : completion d = .ok m d') :
    Completed m d ∧ (m.ops, m.slowPaths) = d.journal.counts := by
  obtain ⟨m', d'', hok, -, -, -, hcompleted⟩ | ⟨l, herror⟩ := completion_cases d
  · cases hok.symm.trans h
    refine ⟨hcompleted, ?_⟩
    obtain ⟨_, _, ⟨⟩, h⟩ := Step.bind_eq_ok.mp h
    obtain ⟨handlers, d₁, h₁, h⟩ := Step.bind_eq_ok.mp h
    obtain ⟨-, rfl⟩ := ofExcept_eq_ok.mp h₁
    obtain ⟨code, d₂, h₂, h⟩ := Step.bind_eq_ok.mp h
    obtain ⟨-, rfl⟩ := ofExcept_eq_ok.mp h₂
    cases h
    exact Journal.counts_finished d.journal code.toList d.data.size
  · cases herror.symm.trans h

/-- Padding at the end of a part is found in the code. -/
theorem Part.Lies.getElem?_padding {cs pre front : List Chunk} {p : Part} {q : Nat}
    (hlies : p.Lies cs pre (front ++ [.nop 1])) (hlaid : Laid cs m d) (hstop : p.stop = q + 1) :
    m.code[q]? = some 0x90 := by
  have hq : q = extent pre + extent front := by
    have hextent : p.stop = _ := hlies.stop_eq
    rw [extent_append, extent_cons, extent_nil] at hextent
    change p.stop = extent pre + (extent front + (1 + 0)) at hextent
    omega
  have hplaced : (q, Chunk.nop 1) ∈ placed 0 cs := by
    apply hlies.mem_placed
    rw [placed_append, hq]
    exact List.mem_append_right _ List.mem_cons_self
  obtain ⟨rest, hrest⟩ := hlaid.drop_code hplaced
  have hhead := congrArg (·[0]?) hrest
  rw [← Array.getElem?_toList]
  simpa [pieces, Piece.render, X64.nop] using hhead

/-- The code consists of the prologue, the operations in their order and then, for each operation
with a slow path, one piece of code, in the order of the operations. The counts of the method are
those of the operations and of the pieces. Behind the micro-operations of a template's slow path
stands one `nop`. How often the code that was put off is asked for before the method is complete
does not matter. -/
theorem slowPaths_of_method (hd : Draft.start target frame name id = .ok d)
    (hm : method constants ops d = .ok m d') :
    (∃ (first last : Draft) (entry : Part) (body slow : List Part),
      Chain first (entry :: body ++ slow) last ∧ last.buffer.finish = .ok m.code ∧
      Abuts 0 (entry :: body ++ slow) m.code.size ∧
      (∀ p ∈ entry :: body ++ slow, p.source.lower p.before = .ok () p.after) ∧
      entry.source = .prologue ∧ body.map Part.source = ops.map .operation ∧
      slow.map Part.source = (body.filterMap Part.slowPath?).map .slowPath ∧
      (∀ p ∈ body, p.slowPath?.isSome = p.source.hasSlowPath) ∧
      slow.length = (ops.filter Operation.hasSlowPath).length ∧
      ∀ p ∈ slow, ∀ x, p.source = .slowPath (.template x) → ∃ e,
        (x.template.slowPath.getD []).forM (microOp x)
          { p.before with current := "xir" } = .ok () e ∧
        p.stop = e.buffer.position + 1 ∧ m.code[e.buffer.position]? = some 0x90) ∧
    m.ops = ops.length ∧ m.slowPaths = (ops.filter Operation.hasSlowPath).length ∧
    ∀ n, methodDraining n constants ops d = .ok m d' := by
  have hdrained : ∀ n, methodDraining n constants ops d = .ok m d' := fun n =>
    (methodDraining_apply hd n).trans hm
  -- With one look at the queue, the method is its front, the code that was put off and its
  -- completion.
  have hrun := hdrained 0
  rw [methodDraining_eq] at hrun
  obtain ⟨_, d₂, hfront, hrun⟩ := Step.bind_eq_ok.mp hrun
  obtain ⟨first, ps, hps, hempty, hzero, hnocounts, cs, hs⟩ := counted_front hd hfront
  rw [drain_finish hps.mark] at hrun
  obtain ⟨_, last, hslow, hcomplete⟩ := Step.bind_eq_ok.mp hrun
  obtain ⟨slow, hslows, -⟩ := counted_slowPaths hps.mark hslow
  obtain ⟨hcompleted, hcounts⟩ := completion_eq_ok hcomplete
  obtain ⟨entry, body, rfl, hentry, hbody⟩ := List.map_eq_cons_iff.mp hps.sources
  have hlowered : ∀ p ∈ entry :: body ++ slow, p.Lowered :=
    List.forall_mem_append.mpr ⟨hps.lowered, hslows.lowered⟩
  have hchain : Chain first (entry :: body ++ slow) last := hps.chain.append hslows.chain.queue
  have hpaths : d₂.pending.toList = body.filterMap Part.slowPath? := by
    have hnone : entry.slowPath? = none := by rw [Part.slowPath?, hentry]
    rw [hps.pending, hempty, List.filterMap_cons_none hnone]
    rfl
  have hlength : d₂.pending.toList.length = (ops.filter Operation.hasSlowPath).length := by
    rw [hpaths]
    exact length_slowPaths (List.forall_mem_cons.mp hps.lowered).2 hbody
  have hsources : slow.map Part.source = (body.filterMap Part.slowPath?).map .slowPath := by
    rw [hslows.sources, hpaths]
  obtain ⟨post, hs', hlies⟩ := hchain.exists_lies (Q := Part.Padded) hs fun p hp pre hpre =>
    (hlowered p hp).adds hpre
  have hlaid : Laid (cs ++ post) m last := ⟨hcompleted, hs'⟩
  refine ⟨⟨first, last, entry, body, slow, hchain, hcompleted.code, ?_,
    fun p hp => (hlowered p hp).lower, hentry, hbody, hsources, fun p hp =>
      (hlowered p (by simp [hp])).pending.2, ?_, ?_⟩, ?_, ?_, hdrained⟩
  · have habuts := hchain.abuts hlowered
    rw [hzero, hs'.position, ← hlaid.size_eq] at habuts
    exact habuts
  · have hsize := congrArg List.length hslows.sources
    rw [List.length_map, List.length_map] at hsize
    exact hsize.trans hlength
  · intro p hp x hx
    obtain ⟨pre, new, hpart, hpadded⟩ := hlies p (List.mem_append_right _ hp)
    obtain ⟨e, front, he, hstop, rfl⟩ := hpadded x hx
    exact ⟨e, he, hstop, hpart.getElem?_padding hlaid hstop⟩
  all_goals
    obtain ⟨hops, hpaths'⟩ := Prod.mk.inj hcounts
    obtain ⟨hnoops, hnopaths⟩ := Prod.mk.inj hnocounts
    obtain ⟨hops₂, hpaths₂⟩ := Prod.mk.inj hps.counts
    obtain ⟨hops₃, hpaths₃⟩ := Prod.mk.inj hslows.counts
    obtain ⟨hcount, hcount'⟩ := countP_slowPaths d₂.pending.toList
    have hfirst := countP_isOperation ops
    have hfirst' := countP_isSlowPath ops
    simp only [hcount, hcount', hfirst, hfirst'] at hops₂ hpaths₂ hops₃ hpaths₃
    omega

/-- A truncation between two uses of a template with a slow path. -/
theorem slowPaths_of_method_around :
    let skip : Template := ⟨"skip", [.jmp 0], some [.bind 0], 1⟩
    let ops : List Operation := [.template skip [] none none,
      .convert .f2i (.reg floatReturnRegister.register .float) (.reg Gpr.rax.register .int),
      .label ⟨0⟩, .template skip [] none none]
    let journal := (Journal.start "around" none []).log (.compiling "around" none 0 0)
    let d : Draft :=
      ⟨⟨Options.standard, ⟨true, true⟩, 4096⟩, .empty, .empty, .empty, .empty, #[],
        journal, "prologue"⟩
    Draft.start d.target .empty "around" none = .ok d ∧
      ∃ m d', method [] ops d = .ok m d' ∧ m.ops = 4 ∧ m.slowPaths = 3 ∧
        methodDraining 2 [] ops d = .ok m d' := by
  intro skip ops journal d
  have hd : Draft.start d.target .empty "around" none = .ok d := rfl
  refine ⟨hd, ?_⟩
  have hok : Step.succeeds (fun _ _ => true) (method [] ops d) = true := by decide +kernel
  obtain ⟨m, d', hm, -⟩ := Step.exists_of_succeeds hok
  obtain ⟨-, hops, hpaths, hdrained⟩ := slowPaths_of_method hd hm
  exact ⟨m, d', hm, hops, hpaths, hdrained 2⟩

end MachineCode
