import MachineCode.Proofs.Failures.Methods
import MachineCode.Proofs.Labels.SlowPaths
import MachineCode.Proofs.Records.Collisions

/-! Micro-operations that the compilation of a method gets to. The draft is then between two
actions, whatever has been lowered before; and where the micro-operation fails, the compilation
fails with its error. -/
namespace MachineCode

open X64 Lower

variable {α : Type} {C : Context} {e : Effect} {d d' : Draft}

/-! ### Drafts between actions -/

/-- All actions lead from between two actions to between two actions. -/
theorem Action.settled_of_ok {a : Action} (ha : a.Within e) (hd : Settled d)
    (hrun : a.perform d = .ok () d') : Settled d' := by
  by_cases hmark : ∃ id, a = .mark id
  · obtain ⟨id, rfl⟩ := hmark
    obtain ⟨_, _, h₀, hrun⟩ := Step.bind_eq_ok.mp hrun
    obtain ⟨-, rfl⟩ := position_eq_ok.mp h₀
    obtain ⟨t, ht, rfl⟩ := record_eq_ok.mp hrun
    obtain ⟨-, rfl⟩ := SideTables.recordMark_eq_ok.mp ht
    exact { hd with marks := rfl }
  · have hsafe : Safe (Between d) a.perform _ := Action.safe_of_ne_mark ha fun id h => hmark ⟨id, h⟩
    exact ((hsafe d hd).1 () d' hrun).settled

theorem performAll_settled {as : List Action} (has : ∀ a ∈ as, a.Within e) (hd : Settled d)
    (hrun : performAll as d = .ok () d') : Settled d' := by
  induction as generalizing d with
  | nil =>
    cases hrun
    exact hd
  | cons a as ih =>
    obtain ⟨ha, has⟩ := List.forall_mem_cons.mp has
    obtain ⟨d₁, h₁, hrun⟩ := performAll_cons_eq_ok.mp hrun
    exact ih has (Action.settled_of_ok ha hd h₁) hrun

/-- A draft in the lowering of a method for this target and this frame, between two actions. -/
structure Draft.Arrived (target : Target) (frame : Frame) (d : Draft) : Prop where
  target : d.target = target
  frame : d.frame = frame
  mark : d.buffer.mark = none
  settled : Settled d

namespace Draft.Arrived

variable {target : Target} {frame : Frame}

theorem start {name : String} {id : Option UInt32} (h : Draft.start target frame name id = .ok d) :
    d.Arrived target frame := by
  have hsettled := (Recorded.start h).1
  obtain ⟨journal, rfl⟩ := Draft.start_eq_ok h
  exact ⟨rfl, rfl, rfl, hsettled⟩

theorem run {x : Lower α} {p : α → Prop} {a : α} (h : d.Arrived target frame)
    (hx : Lowers (Context.of d) e x p) (hrun : x d = .ok a d') : d'.Arrived target frame := by
  obtain ⟨-, hholds, as, has, hall⟩ := hx.run (Context.holds_of h.mark) hrun
  exact ⟨hholds.target.trans h.target, hholds.frame.trans h.frame, hholds.mark,
    performAll_settled has h.settled hall⟩

/-- The name of the operation, the queue and new labels do not matter. -/
theorem congr (h : d.Arrived target frame) (htarget : d'.target = d.target)
    (hframe : d'.frame = d.frame) (hmark : d'.buffer.mark = d.buffer.mark)
    (hposition : d'.buffer.position = d.buffer.position) (hdata : d'.data = d.data)
    (htables : d'.tables = d.tables) : d'.Arrived target frame :=
  ⟨htarget.trans h.target, hframe.trans h.frame, hmark.trans h.mark,
    Between.settled (Recorded.settle (h.settled.advance (Nat.le_of_eq hposition.symm)
      (Nat.le_of_eq (congrArg DataSection.size hdata.symm)) htables htarget))⟩

theorem sources {sources : List Source} (h : d.Arrived target frame)
    (hrun : sources.forM Source.lower d = .ok () d') :
    d'.Arrived target frame := by
  induction sources generalizing d with
  | nil =>
    cases hrun
    exact h
  | cons s sources ih =>
    obtain ⟨_, d₁, h₁, hrun⟩ := Step.bind_eq_ok.mp hrun
    exact ih (h.run (s.does_lower d) h₁) hrun

theorem microOps {x : Expansion} {ops : List MicroOp} (h : d.Arrived target frame)
    (hrun : ops.forM (microOp x) d = .ok () d') : d'.Arrived target frame :=
  h.run (does_microOps_uncounting _ x ops) hrun

end Draft.Arrived

section

variable {target : Target} {frame : Frame} {constants : List DataConstant}
  {ops : List Operation} {s : Source}

/-- What the lowering of a method gets to is between two actions. -/
theorem Reaches.arrived (hd : d.Arrived target frame)
    (h : Reaches constants ops d s d') : d'.Arrived target frame := by
  cases h with
  | front hsources hrun =>
    obtain ⟨_, d₁, hprepare, hrun⟩ := Step.bind_eq_ok.mp hrun
    exact (hd.run (does_preparation (e := (Source.prologue).effect 0) constants ops)
      hprepare).sources hrun
  | @back pre post path d₂ _ hfront hpaths hrun =>
    obtain ⟨_, d₁, hprepare, hfront⟩ := Step.bind_eq_ok.mp hfront
    have hd₂ :=
      (hd.run (does_preparation (e := (Source.prologue).effect 0) constants ops)
        hprepare).sources hfront
    have htaken : Draft.Arrived target frame { d₂ with pending := #[] } :=
      hd₂.congr rfl rfl rfl rfl rfl rfl
    have hslow :
        (pre.map Source.slowPath).forM Source.lower { d₂ with pending := #[] } = .ok () d' := by
      rw [List.forM_eq_forM, List.forM_map]
      exact hrun
    exact htaken.sources hslow

theorem Source.Expands.arrived {x : Expansion} {micros : List MicroOp} {started : Draft}
    (h : s.Expands d x micros started) (hd : d.Arrived target frame) :
    started.Arrived target frame := by
  cases h with
  | fast t | slow x => exact hd.congr rfl rfl rfl rfl rfl rfl

/-! ### Failures -/

/-- Where a micro-operation fails, so does what it belongs to. -/
theorem Source.Expands.error {x : Expansion} {micros : List MicroOp} {started : Draft} {err : Error}
    (h : s.Expands d x micros started) (hrun : micros.forM (microOp x) started = .error err d') :
    s.lower d = .error err d' := by
  cases h with
  | fast t operands info infoAfter =>
    have hlower : template t operands info infoAfter { d with current := "xir" } = .error err d' :=
      (Step.bind_of_ok rfl).trans (Step.bind_of_error hrun)
    exact operation_of_error hlower
  | slow x =>
    have hlower : SlowPath.code (.template x) { d with current := "xir" } = .error err d' :=
      Step.bind_of_error hrun
    obtain ⟨f, heq⟩ := slowPath_eq (.template x)
    rw [Source.lower, heq]
    exact (Step.bind_of_ok rfl).trans ((Step.bind_of_ok rfl).trans (Step.bind_of_error hlower))

/-- A list of steps fails where one of them does that it gets to. -/
theorem forM_eq_error {f : α → Lower Unit} {xs pre post : List α} {a : α} {e₁ : Draft} {err : Error}
    (hxs : xs = pre ++ a :: post) (hpre : pre.forM f d = .ok () e₁) (ha : f a e₁ = .error err d') :
    xs.forM f d = .error err d' := by
  subst hxs
  rw [List.forM_eq_forM, List.forM_append, ← List.forM_eq_forM, Step.bind_of_ok hpre]
  exact Step.bind_of_error ha

/-- Where a source fails, so does the method. -/
theorem Reaches.error {e₁ : Draft} {err : Error} (h : Reaches constants ops d s e₁)
    (hlower : s.lower e₁ = .error err d') :
    method constants ops d = .error err d' := by
  rw [method_eq, body_eq]
  refine Step.bind_of_error ?_
  cases h with
  | front hsources hrun =>
    obtain ⟨_, d₁, hprepare, hrun⟩ := Step.bind_eq_ok.mp hrun
    rw [Step.bind_of_ok hprepare]
    exact Step.bind_of_error (forM_eq_error hsources hrun hlower)
  | @back pre post path d₂ _ hfront hpaths hrun =>
    obtain ⟨_, d₁, hprepare, hfront⟩ := Step.bind_eq_ok.mp hfront
    rw [Step.bind_of_ok hprepare, Step.bind_of_ok hfront]
    have hslow : slowPaths d₂ = .error err d' :=
      forM_eq_error (f := slowPath) (d := { d₂ with pending := #[] }) hpaths hrun hlower
    exact Step.bind_of_error hslow

end

/-! ### Steps without code -/

namespace Lower

/-- There is no code for the step. -/
def Refused {α : Type} (x : Lower α) : Prop :=
  ∀ d, ∃ detail, x d = .error (.unhandled d.current detail) d

theorem refused_unhandled {α : Type} (detail : String) : Refused (unhandled detail : Lower α) :=
  fun _ => ⟨detail, rfl⟩

theorem Refused.bind {β : Type} {x : Lower α} {f : α → Lower β}
    (h : Refused x) : Refused (x >>= f) :=
  fun d => (h d).imp fun _ => Step.bind_of_error

/-- An operation without code is refused by its name. -/
theorem operation_of_refused {op : Operation} (h : Refused (lower op)) (d : Draft) :
    ∃ detail d', operation op d = .error (.unhandled op.name detail) d' := by
  obtain ⟨detail, herr⟩ := h { d with current := op.name }
  exact ⟨detail, { d with current := op.name }, operation_of_error herr⟩

theorem gpr_eq_pure {o : Operand} {g : Gpr} (h : gpr? o = some g) : gpr o = pure g := by
  cases o with
  | reg r kind =>
    have h : Gpr.ofRegister? r = some g := h
    rw [gpr, h]
  | stack | const | addr => cases h

/-- An operand without a general register is refused. -/
theorem refused_gpr {o : Operand} (h : gpr? o = none) : Refused (gpr o) := by
  cases o with
  | reg r kind =>
    have h : Gpr.ofRegister? r = none := h
    rw [gpr, h]
    exact refused_unhandled _
  | stack | const | addr => exact refused_unhandled _

end Lower

/-! ### Micro-operations -/

/-- The compilation of the method gets to the micro-operation, with this draft. -/
inductive Attempts (target : Target) (source : MethodSource) (x : Expansion)
    (op : MicroOp) : Draft → Prop
  | intro {d e started before : Draft} {s : Source} {front back : List MicroOp}
    (hstart : Draft.start target source.frame source.name source.id = .ok d)
    (hreach : Reaches source.constants source.ops d s e)
      (hexpands : s.Expands e x (front ++ op :: back) started)
    (hfront : front.forM (microOp x) started = .ok () before) : Attempts target source x op before

namespace Attempts

variable {target : Target} {source : MethodSource} {x : Expansion} {op : MicroOp} {before : Draft}

theorem arrived (h : Attempts target source x op before) : before.Arrived target source.frame := by
  cases h with
  | intro hstart hreach hexpands hfront =>
    exact (hexpands.arrived (hreach.arrived (.start hstart))).microOps hfront

/-- Where the micro-operation fails, the compilation fails with its error. -/
theorem compile_eq_error {err : Error} (h : Attempts target source x op before)
    (hrun : microOp x op before = .error err d') :
    (compile target source).1 = .error err := by
  cases h with
  | intro hstart hreach hexpands hfront =>
    have hmethod := hreach.error (hexpands.error (forM_eq_error rfl hfront hrun))
    exact compile_error_of_method hstart hmethod

/-- The draft that the first operation of a method starts from. -/
def first? (target : Target) (source : MethodSource) : Option Draft :=
  match Draft.start target source.frame source.name source.id with
  | .error _ => none
  | .ok d =>
    match (preparation source.constants source.ops >>=
      fun _ => [Source.prologue].forM Source.lower) d with
    | .error .. => none
    | .ok _ e => some e

/-- A micro-operation at the start of a method. -/
theorem of_first? {t : Template} {operands : List Operand} {info infoAfter : Option DebugInfo}
    {back : List MicroOp} {post : List Operation} {e : Draft} (he : first? target source = some e)
    (hops : source.ops = .template t operands info infoAfter :: post)
    (hpath : t.fastPath = op :: back) (hlabels : t.labelCount = 0) :
    Attempts target source ⟨t, operands, [], info, infoAfter⟩ op
      { e with current := "xir", buffer := (e.buffer.newLabels 0).2 } := by
  unfold first? at he
  split at he
  · cases he
  rename_i d hstart
  split at he
  · cases he
  rename_i u e' hrun
  cases he
  have hsources : .prologue :: source.ops.map .operation =
      [Source.prologue] ++ .operation (.template t operands info infoAfter) ::
        post.map .operation := by
    rw [hops]
    rfl
  have hexpands := Source.Expands.fast t operands info infoAfter e
  rw [hlabels, hpath, ← List.nil_append (op :: back)] at hexpands
  exact .intro hstart (.front hsources hrun) hexpands rfl

end Attempts

end MachineCode
