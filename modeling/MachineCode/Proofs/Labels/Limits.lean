import MachineCode.Proofs.Labels.Draws

/-! The limit on labels. Whatever has been done to a method before, whether it has succeeded or
failed, a request for labels beyond the limit is refused. Labels that are made are not requested, so
the limit holds where they find room. -/
namespace MachineCode

open X64 CodeBuffer Step

variable {α β : Type} {l : Label} {b b' : CodeBuffer}

/-- The error is that of the limit, or of something that an operation does in front of its
request. -/
inductive Error.AtLimit : Error → Prop
  | limit {count : Nat} (h : CodeBuffer.labelLimit < count) :
    AtLimit (.labelLimit count CodeBuffer.labelLimit)
  | unhandled (op detail : String) : AtLimit (.unhandled op detail)
  | displacement (value : Int) : AtLimit (.displacementOutOfRange value)

theorem Error.atLimit_of_displacement32 {value : Int} {e : Error}
    (h : displacement32 value = .error e) :
    e.AtLimit := by
  unfold displacement32 at h
  cases hvalue : int32? value with
  | none =>
    rw [hvalue] at h
    cases h
    exact .displacement _
  | some disp =>
    rw [hvalue] at h
    cases h

namespace CodeBuffer

theorem field_atLimit {site : ReferenceSite} {target : Nat} {e : Error} (hkind : site.kind ≠ .rel8)
    (h : field site target = .error e) : e.AtLimit := by
  obtain ⟨offset, kind⟩ := site
  cases kind with
  | rel8 => exact absurd rfl hkind
  | rel32 | table base =>
    obtain h | ⟨_, _, h⟩ := Step.except_bind_eq_error.mp h
    · exact Error.atLimit_of_displacement32 h
    · cases h

theorem reference_atLimit {kind : ReferenceKind} {e : Error} (hkind : kind ≠ .rel8)
    (h : reference l kind b = .error e b') : e.AtLimit := by
  rw [reference, Step.get_bind] at h
  cases hl : b.labelOffset l with
  | some target =>
    simp only [hl] at h
    cases hfield : field ⟨b.position, kind⟩ target with
    | ok bytes =>
      rw [hfield] at h
      cases h
    | error e' =>
      rw [hfield] at h
      cases h
      exact field_atLimit hkind hfield
  | none =>
    simp only [hl, addSite, bind_assoc] at h
    obtain h | ⟨_, b₁, -, h⟩ := Step.bind_eq_error.mp h
    · obtain hlimit | hle := Nat.lt_or_ge labelLimit (l.index + 1)
      · cases (reserveLabels_of_limit hlimit).symm.trans h
        exact .limit hlimit
      · cases (reserveLabels_of_le hle).symm.trans h
    · cases h

theorem branch_atLimit {short : UInt8} {long : List UInt8} {e : Error}
    (h : branch short long l b = .error e b') :
    e.AtLimit := by
  rw [branch, Step.get_bind] at h
  cases hd : b.shortReach? l with
  | none =>
    rw [hd] at h
    exact reference_atLimit (by simp) h
  | some d =>
    rw [hd] at h
    cases h

end CodeBuffer

namespace Lower

variable {known cap n : Nat} {x : Lower α} {f : α → Lower β}

/-- The step fails, wherever it starts. -/
def Barred (x : Lower α) : Prop := ∀ d : Draft, d.Fit → ∃ e d', x d = .error e d' ∧ e.AtLimit

/-- The step succeeds, or fails like one that is refused. -/
def Permits (x : Lower α) : Prop :=
  ∀ d : Draft, d.Fit → (∃ a d', x d = .ok a d' ∧ d'.Fit) ∨ ∃ e d', x d = .error e d' ∧ e.AtLimit

theorem Permits.bind (hx : Permits x) (hf : ∀ a, Barred (f a)) : Barred (x >>= f) := by
  intro d hd
  obtain ⟨a, d', h, hd'⟩ | ⟨e, d', h, he⟩ := hx d hd
  · rw [Step.bind_of_ok h]
    exact hf a d' hd'
  · exact ⟨e, d', Step.bind_of_error h, he⟩

theorem Barred.bind (hx : Barred x) : Barred (x >>= f) := by
  intro d hd
  obtain ⟨e, d', h, he⟩ := hx d hd
  exact ⟨e, d', Step.bind_of_error h, he⟩

theorem barred_ite {p : Prop} [Decidable p] {x y : Lower α} (hx : p → Barred x)
    (hy : ¬ p → Barred y) :
    Barred (if p then x else y) := by
  split
  · exact hx ‹_›
  · exact hy ‹_›

theorem permits_of_draws (hx : Draws 0 cap n x)
    (herror : ∀ d e d', x d = .error e d' → e.AtLimit) : Permits x := by
  intro d hd
  have hfit := (hx d (Nat.zero_le _)).fit hd
  cases h : x d with
  | ok a d' => exact .inl ⟨a, d', rfl, final_of_ok h ▸ hfit⟩
  | error e d' => exact .inr ⟨e, d', rfl, herror d e d' h⟩

/-- What always succeeds and leaves all labels as they are. -/
theorem permits_of_steady (h : Steady x) (hx : ∀ d, ∃ a d', x d = .ok a d') : Permits x := by
  have hdraws : Draws 0 0 0 x := draws_of_steady h
  refine permits_of_draws hdraws fun d e d' herror => ?_
  obtain ⟨a, d'', hok⟩ := hx d
  cases hok.symm.trans herror

theorem barred_unhandled (detail : String) : Barred (unhandled detail : Lower α) :=
  fun d _ => ⟨_, d, rfl, .unhandled _ _⟩

theorem permits_gpr (o : Operand) : Permits (gpr o) := by
  have hfails : ∀ detail, Permits (unhandled detail : Lower Gpr) := fun detail d hd =>
    .inr (barred_unhandled detail d hd)
  unfold gpr
  split
  · split
    · exact fun d hd => .inl ⟨_, d, rfl, hd⟩
    · exact hfails _
  · exact hfails _

theorem permits_emit (i : Instr) : Permits (emit i) :=
  permits_of_steady (steady_emit i) fun _ => ⟨_, _, rfl⟩

theorem permits_position : Permits position :=
  permits_of_steady steady_position fun _ => ⟨_, _, rfl⟩

/-! ### Requests -/

theorem onBuffer_of_error {x : BufferStep α} {d : Draft} {e : Error} (h : x d.buffer = .error e b) :
    onBuffer x d = .error e { d with buffer := b } := by
  simp only [onBuffer, h]

theorem atLimit_of_onBuffer {x : BufferStep α} {d d' : Draft} {e : Error}
    (hx : ∀ b b', x b = .error e b' → e.AtLimit) (h : onBuffer x d = .error e d') : e.AtLimit := by
  cases hb : x d.buffer with
  | ok a b =>
    simp only [onBuffer, hb] at h
    cases h
  | error e' b =>
    cases (onBuffer_of_error hb).symm.trans h
    exact hx _ _ hb

theorem permits_jcc (cond : Cond) (l : Label) : Permits (jcc cond l) :=
  permits_of_draws (draws_jcc cond (Nat.lt_of_lt_of_le (Nat.lt_succ_self _) (Nat.le_max_right _ _)))
    fun _ _ _ => atLimit_of_onBuffer fun _ _ => branch_atLimit

theorem permits_entry (l : Label) (table : Nat) :
    Permits (onBuffer (CodeBuffer.reference l (.table table))) :=
  permits_of_draws
    (draws_reference (Nat.lt_of_lt_of_le (Nat.lt_succ_self _) (Nat.le_max_right _ _)) _)
    fun _ _ _ => atLimit_of_onBuffer fun _ _ => reference_atLimit (by simp)

theorem barred_jcc (cond : Cond) (hl : labelLimit < l.index + 1) : Barred (jcc cond l) :=
  fun _ hd => ⟨_, _, onBuffer_of_error (branch_of_limit hd.bound hl), .limit hl⟩

theorem barred_jmp (hl : labelLimit < l.index + 1) : Barred (jmp l) :=
  fun _ hd => ⟨_, _, onBuffer_of_error (branch_of_limit hd.bound hl), .limit hl⟩

theorem barred_bind (hl : labelLimit < l.index + 1) : Barred (Lower.bind l) :=
  fun _ _ => ⟨_, _, Step.bind_of_error (onBuffer_of_error (bind_of_limit hl)), .limit hl⟩

theorem barred_entries {targets : List Label} (table : Nat) (hl : l ∈ targets)
    (hlimit : labelLimit < l.index + 1) :
    Barred (targets.forM fun l => onBuffer (CodeBuffer.reference l (.table table))) := by
  induction targets with
  | nil => cases hl
  | cons m targets ih =>
    obtain rfl | hl := List.mem_cons.mp hl
    · refine Barred.bind fun d hd =>
        ⟨_, _, onBuffer_of_error (reference_of_limit hd.bound hlimit), .limit hlimit⟩
    · exact (permits_entry m table).bind fun _ => ih hl

theorem barred_tableSwitch {targets : List Label} {default : Label} (index : Operand) (low : Int32)
    (hl : l ∈ default :: targets) (hlimit : labelLimit < l.index + 1) :
    Barred (tableSwitch index low targets default) := by
  unfold tableSwitch
  refine (permits_gpr index).bind fun idx => barred_ite (fun _ => barred_unhandled _) fun _ => ?_
  refine barred_ite (fun hempty => ?_) fun _ => ?_
  · rw [List.isEmpty_iff.mp hempty] at hl
    exact barred_jmp (List.mem_singleton.mp hl ▸ hlimit)
  split
  · exact barred_unhandled _
  split
  · exact barred_unhandled _
  extract_lets address jump dispatch
  have hdispatch : ∀ u, Barred (dispatch u) := by
    refine fun _ => (permits_emit _).bind fun _ => ?_
    obtain rfl | hl := List.mem_cons.mp hl
    · exact (barred_jcc _ hlimit).bind
    refine (permits_jcc _ _).bind fun _ => permits_position.bind fun _ =>
      (permits_emit _).bind fun _ => ?_
    refine Permits.bind (permits_of_steady (along_forM fun _ => steady_emit _) fun _ =>
      ⟨_, _, rfl⟩) fun _ => ?_
    refine Permits.bind (permits_of_steady (steady_emitAlign _) fun _ => ⟨_, _, rfl⟩) fun _ => ?_
    exact permits_position.bind fun table => (barred_entries table hl hlimit).bind
  exact barred_ite (fun _ => (permits_emit _).bind hdispatch) fun _ =>
    (permits_emit _).bind hdispatch

theorem barred_floatBranch {target unordered : Label} (cond : Condition)
    (hl : l ∈ [unordered, target]) (hlimit : labelLimit < l.index + 1) :
    Barred (floatBranch cond target unordered) := by
  obtain rfl | hl := List.mem_cons.mp hl
  · exact (barred_jcc _ hlimit).bind
  · exact (permits_jcc _ _).bind fun _ => barred_jcc _ (List.mem_singleton.mp hl ▸ hlimit)

end Lower

theorem foldl_max_le {xs : List Label} {n m : Nat} (hm : m ≤ n) (h : ∀ l ∈ xs, l.index + 1 ≤ n) :
    xs.foldl (fun n l => max n (l.index + 1)) m ≤ n := by
  induction xs generalizing m with
  | nil => exact hm
  | cons l xs ih =>
    obtain ⟨hl, hxs⟩ := List.forall_mem_cons.mp h
    exact ih (Nat.max_le.mpr ⟨hm, hl⟩) hxs

/-- Where an operation asks for more labels than the limit, one of its labels is beyond it. -/
theorem Operation.exists_of_limit {op : Operation} (hop : labelLimit < op.demand) :
    ∃ l ∈ op.asked, labelLimit < l.index + 1 := by
  by_contra hnone
  exact Nat.not_le.mpr hop (foldl_max_le (Nat.zero_le _) fun l hl =>
    Nat.le_of_not_lt fun h => hnone ⟨l, hl, h⟩)

namespace Lower

/-- What follows the code of an operation leaves all labels as they are. -/
theorem size_le_operation (op : Operation) (d : Draft) :
    (final (lower op) { d with current := op.name }).buffer.labels.size ≤
      (final (operation op) d).buffer.labels.size := by
  have hreport : ∀ start, Steady (position >>= fun stop => modify fun d : Draft =>
      { d with journal := d.journal.operation op.name start stop } : Lower PUnit) :=
    fun _ => steady_position.bind fun _ => along_modify fun _ => ⟨rfl, rfl⟩
  have hsame :=
    along_final_bind (fun _ => hreport d.buffer.position) (lower op) { d with current := op.name }
  exact Nat.le_of_eq (congrArg Array.size hsame.labels).symm

theorem barred_operation {op : Operation}
    (hop : labelLimit < op.demand) : Barred (operation op) := by
  refine Permits.bind (permits_of_steady (steady_setCurrent _) fun _ => ⟨_, _, rfl⟩) fun _ => ?_
  refine permits_position.bind fun start => Barred.bind ?_
  obtain ⟨l, hl, hlimit⟩ := Operation.exists_of_limit hop
  cases op with
  | label m => exact barred_bind (List.mem_singleton.mp hl ▸ hlimit)
  | branch cond m =>
    cases cond with
    | none => exact barred_jmp (List.mem_singleton.mp hl ▸ hlimit)
    | some cond => exact barred_jcc _ (List.mem_singleton.mp hl ▸ hlimit)
  | floatBranch cond target unordered => exact barred_floatBranch cond hl hlimit
  | tableSwitch index low targets default =>
    have hswitch := barred_tableSwitch index low hl hlimit
    exact hswitch
  | _ => cases hl

end Lower

/-! ### Runs -/

/-- What can be asked of a method while it is compiled. -/
inductive DraftStep where
  | reserve (count : Nat)
  | prologue
  | operation (op : Operation)
  | slowPaths
  | constant (bytes : List UInt8) (align : Nat) (kind : Kind)
  | newLabel
  | bind (l : Label)
  deriving Repr

namespace DraftStep

open Lower

variable {d : Draft} {step : DraftStep}

def run : DraftStep → Lower Unit
  | reserve count => Lower.reserveLabels count
  | prologue => Lower.prologue
  | operation op => Lower.operation op
  | slowPaths => Lower.slowPaths
  | constant bytes align kind => discard (dataConstant bytes align kind)
  | newLabel => discard Lower.newLabel
  | bind l => Lower.bind l

/-- The draft that a step leaves, also when it fails. -/
def attempt (step : DraftStep) (d : Draft) : Draft := final step.run d

/-- One step after the other, whether they fail or not. -/
def attemptAll (steps : List DraftStep) (d : Draft) : Draft :=
  steps.foldl (fun d step => step.attempt d) d

/-- The number of labels that the step asks for. -/
def demand : DraftStep → Nat
  | reserve count => count
  | operation op => op.demand
  | bind l => l.index + 1
  | _ => 0

/-- The number of labels that the step makes at most. -/
def fresh (d : Draft) : DraftStep → Nat
  | operation op => op.fresh
  | slowPaths => (d.pending.toList.map SlowPath.fresh).sum
  | newLabel => 1
  | _ => 0

/-- The step asks for labels once, before it does anything else to them. -/
def asksOnce : DraftStep → Bool
  | reserve _ | bind _ | operation (.label _) | operation (.branch ..) => true
  | _ => false

theorem widens_slowPaths {cap : Nat} (hd : d.Fit) :
    d.Widens cap (d.pending.toList.map SlowPath.fresh).sum (final Lower.slowPaths d) := by
  let emptied : Draft := { d with pending := #[] }
  have hpaths : Draws d.buffer.labels.size cap _ (d.pending.toList.forM slowPath) :=
      draws_forM fun path hpath =>
    draws_slowPath (hd.pending path (Array.mem_toList_iff.mp hpath))
  have h := hpaths emptied (Nat.le_refl _)
  exact ⟨h.le, h.bounded, fun _ => h.fit ⟨hd.bound, nofun⟩⟩

/-- One step, whether it succeeds or fails. -/
theorem widens_attempt (hd : d.Fit) (step : DraftStep) :
    d.Widens step.demand (step.fresh d) (step.attempt d) := by
  cases step with
  | reserve count => exact draws_reserveLabels (Nat.le_max_right _ _) d (Nat.zero_le _)
  | prologue => exact draws_of_steady steady_prologue d (Nat.zero_le _)
  | operation op => exact draws_operation op d (Nat.zero_le _)
  | slowPaths => exact widens_slowPaths hd
  | constant bytes align kind =>
    exact draws_of_steady (steady_dataConstant _ _ _).discard d (Nat.zero_le _)
  | newLabel =>
    have hmade : Draws 0 0 (1 + 0) (discard Lower.newLabel) :=
      draws_newLabel fun _ _ _ _ => draws_of_steady (along_pure _)
    exact hmade d (Nat.zero_le _)
  | bind l =>
    exact draws_bind (Nat.lt_of_lt_of_le (Nat.lt_succ_self _) (Nat.le_max_right _ _)) d
      (Nat.zero_le _)

/-- A step asks for labels, or it makes them. -/
theorem demand_or_fresh (step : DraftStep) (d : Draft) : step.demand = 0 ∨ step.fresh d = 0 := by
  cases step with
  | operation op =>
    cases op <;> simp [demand, fresh, Operation.demand, Operation.asked, Operation.fresh]
  | _ => simp [demand, fresh]

/-- One step keeps within the limit, when the labels that it makes find room. -/
theorem size_attempt_le (hd : d.Fit) (hsize : d.buffer.labels.size ≤ labelLimit)
    (hroom : step.fresh d ≤ labelLimit - d.buffer.labels.size) :
    (step.attempt d).buffer.labels.size ≤ labelLimit := by
  have h := (widens_attempt hd step).bounded
  obtain hzero | hzero := demand_or_fresh step d <;> omega

/-- Wherever labels are made, the limit leaves room for them. -/
def Room : List DraftStep → Draft → Prop
  | [], _ => True
  | step :: steps, d =>
    step.fresh d ≤ labelLimit - d.buffer.labels.size ∧ Room steps (step.attempt d)

def decidableRoom : ∀ (steps : List DraftStep) (d : Draft), Decidable (Room steps d)
  | [], _ => .isTrue trivial
  | step :: steps, d =>
    have := decidableRoom steps (step.attempt d)
    inferInstanceAs
      (Decidable (step.fresh d ≤ labelLimit - d.buffer.labels.size ∧ Room steps (step.attempt d)))

instance (steps : List DraftStep) (d : Draft) : Decidable (Room steps d) := decidableRoom steps d

theorem fit_attemptAll (hd : d.Fit) (steps : List DraftStep) : (attemptAll steps d).Fit := by
  induction steps generalizing d with
  | nil => exact hd
  | cons step steps ih => exact ih ((widens_attempt hd step).fit hd)

theorem size_attemptAll_le {steps : List DraftStep} (hd : d.Fit)
    (hsize : d.buffer.labels.size ≤ labelLimit) (hroom : Room steps d) :
    (attemptAll steps d).buffer.labels.size ≤ labelLimit := by
  induction steps generalizing d with
  | nil => exact hsize
  | cons step steps ih =>
    exact ih ((widens_attempt hd step).fit hd) (size_attempt_le hd hsize hroom.1) hroom.2

/-- The step fails. If it asks for labels once, it fails because of the limit and leaves all labels
as they are, else it may have reserved labels below the limit. -/
structure Refused (step : DraftStep) (d : Draft) : Prop where
  fails : ∃ e d', step.run d = .error e d' ∧ e.AtLimit ∧
    d'.buffer.labels.size ≤ max d.buffer.labels.size labelLimit
  once : step.asksOnce = true → ∃ d', step.run d = .error (.labelLimit step.demand labelLimit) d' ∧
    d'.buffer.labels = d.buffer.labels

theorem barred_of_limit (hstep : labelLimit < step.demand) : Barred step.run := by
  cases step with
  | reserve count =>
    exact fun _ _ => ⟨_, _, onBuffer_of_error (reserveLabels_of_limit hstep), .limit hstep⟩
  | operation op => exact barred_operation hstep
  | bind l => exact barred_bind hstep
  | _ => cases hstep

/-- A step that asks for more labels than the limit is refused. -/
theorem refused_of_limit (hd : d.Fit) (hstep : labelLimit < step.demand) : step.Refused d := by
  constructor
  · obtain ⟨e, d', hrun, he⟩ := barred_of_limit hstep d hd
    have h := (widens_attempt hd step).bounded
    rw [attempt, final_of_error hrun] at h
    obtain hzero | hzero := demand_or_fresh step d
    · omega
    · exact ⟨e, d', hrun, he, by omega⟩
  · intro honce
    cases step with
    | reserve count => exact ⟨_, onBuffer_of_error (reserveLabels_of_limit hstep), rfl⟩
    | bind l => exact ⟨_, Step.bind_of_error (onBuffer_of_error (bind_of_limit hstep)), rfl⟩
    | operation op =>
      cases op with
      | label l =>
        have hl : (operation (.label l)).demand = l.index + 1 := Nat.zero_max _
        rw [hl] at hstep ⊢
        exact ⟨_,
          operation_of_error (Step.bind_of_error (onBuffer_of_error (bind_of_limit hstep))), rfl⟩
      | branch cond l =>
        have hl : (operation (.branch cond l)).demand = l.index + 1 := Nat.zero_max _
        rw [hl] at hstep ⊢
        cases cond with
        | none =>
          exact ⟨_, operation_of_error (onBuffer_of_error (branch_of_limit hd.bound hstep)), rfl⟩
        | some cond =>
          exact ⟨_, operation_of_error (onBuffer_of_error (branch_of_limit hd.bound hstep)), rfl⟩
      | _ => cases honce
    | _ => cases honce

end DraftStep

/-! ### Methods -/

theorem Draft.fit_start {target : Target} {frame : Frame} {name : String} {id : Option UInt32}
    {d : Draft} (h : Draft.start target frame name id = .ok d) : d.Fit ∧ d.buffer = .empty := by
  obtain ⟨journal, rfl⟩ := Draft.start_eq_ok h
  exact ⟨⟨nofun, nofun⟩, rfl⟩

theorem Lower.exists_addConstants (constants : List DataConstant) (d : Draft) :
    ∃ d', addConstants constants d = .ok () d' := by
  induction constants generalizing d with
  | nil => exact ⟨d, rfl⟩
  | cons c constants ih =>
    obtain ⟨d', h⟩ := ih (final (discard (dataConstant c.bytes c.align .int)) d)
    exact ⟨d', (Step.bind_of_ok rfl).trans h⟩

/-- A method that names more labels than the limit is refused. -/
theorem compile_of_limit {target : Target} (source : MethodSource) {d : Draft}
    (hd : Draft.start target source.frame source.name source.id = .ok d)
    (hlimit : labelLimit < Lower.labelCount source.ops) :
    (compile target source).1 = .error (.labelLimit (Lower.labelCount source.ops) labelLimit) := by
  obtain ⟨d', hconstants⟩ := Lower.exists_addConstants source.constants d
  have hreserve := Lower.onBuffer_of_error (d := d') (reserveLabels_of_limit hlimit)
  exact compile_error_of_method hd
    ((Step.bind_of_ok hconstants).trans (Step.bind_of_error hreserve))

/-- Labels that are asked for never go beyond the limit. A run of operations on a code buffer keeps
within the limit exactly when each label that is made finds room, and a run of steps on a method
keeps within it when the labels that each step makes do; steps that fail may stand in both. Whatever
has been done before, requests beyond the limit are refused, and reservations within it are
granted. -/
theorem labels_le_limit {target : Target} {frame : Frame} {name : String} {id : Option UInt32}
    {d : Draft} (hd : Draft.start target frame name id = .ok d) (steps : List DraftStep)
    (ops : List BufferOp) :
    ((BufferOp.attemptAll ops .empty).labels.size ≤ labelLimit ↔ BufferOp.Room ops .empty) ∧
    (∀ op : BufferOp, labelLimit < op.demand → op.Refused (BufferOp.attemptAll ops .empty)) ∧
    (∀ count ≤ labelLimit, ∃ b', (BufferOp.reserve count).run
      (BufferOp.attemptAll ops .empty) = .ok () b' ∧
      b'.labels.size = max (BufferOp.attemptAll ops .empty).labels.size count) ∧
    (DraftStep.Room steps d → (DraftStep.attemptAll steps d).buffer.labels.size ≤ labelLimit) ∧
    (∀ step : DraftStep, labelLimit < step.demand → step.Refused (DraftStep.attemptAll steps d)) ∧
    ∀ (constants : List DataConstant) (body : List Operation), labelLimit < Lower.labelCount body →
      (compile target ⟨name, id, frame, constants, body⟩).1 =
        .error (.labelLimit (Lower.labelCount body) labelLimit) := by
  obtain ⟨hfit, hempty⟩ := Draft.fit_start hd
  have hsize : d.buffer.labels.size ≤ labelLimit := hempty ▸ Nat.zero_le _
  refine ⟨BufferOp.size_attemptAll_le_iff (Nat.zero_le _) ops, fun op hop => ?_,
    fun count hcount => ?_, DraftStep.size_attemptAll_le hfit hsize, fun step hstep =>
      ?_, fun constants body hbody => ?_⟩
  · exact BufferOp.refused_of_limit (BufferOp.boundBelow_attemptAll (hempty ▸ hfit.bound) ops) hop
  · refine ⟨_, reserveLabels_of_le hcount, ?_⟩
    rw [size_withLabels]
    omega
  · exact DraftStep.refused_of_limit (DraftStep.fit_attemptAll hfit steps) hstep
  · exact compile_of_limit ⟨name, id, frame, constants, body⟩ hd hbody

/-- A template with three labels, a label that is made, and a request for two; then a request beyond
the limit. -/
theorem labels_le_limit_template :
    let target : Target := ⟨.standard, ⟨true, true⟩, 4096⟩
    let d : Draft := ⟨target, .empty, .empty, .empty, .empty, #[],
      (Journal.start "limits" none []).log (.compiling "limits" none 0 0), "prologue"⟩
    let t : Template := ⟨"exit", [.jmp 2, .bind 0], some [.bind 2, .jmp 0], 3⟩
    let steps : List DraftStep :=
      [.reserve 2, .prologue, .operation (.template t [] none none), .newLabel,
        .operation (.branch none ⟨labelLimit⟩), .slowPaths]
    Draft.start target .empty "limits" none = .ok d ∧
      (DraftStep.attemptAll steps d).buffer.labels.size = 6 ∧
      (DraftStep.attemptAll steps d).buffer.labels.size ≤ labelLimit ∧
      (DraftStep.bind ⟨labelLimit⟩).Refused (DraftStep.attemptAll steps d) ∧
      (BufferOp.jmp ⟨labelLimit⟩).Refused (BufferOp.attemptAll [.newLabel, .bind ⟨0⟩] .empty) ∧
      (compile target ⟨"limits", none, .empty, [], [.label ⟨labelLimit⟩]⟩).1 =
        .error (.labelLimit (labelLimit + 1) labelLimit) := by
  intro target d t steps
  have hd : Draft.start target .empty "limits" none = .ok d := rfl
  obtain ⟨-, hbuffer, -, hle, hrefused, hcompile⟩ := labels_le_limit hd steps [.newLabel, .bind ⟨0⟩]
  have hroom : DraftStep.Room steps d := by decide +kernel
  have hbody : Lower.labelCount [.label ⟨labelLimit⟩] = labelLimit + 1 := Nat.zero_max _
  have hlabel := hcompile [] [.label ⟨labelLimit⟩] (hbody ▸ Nat.lt_succ_self _)
  rw [hbody] at hlabel
  exact ⟨hd, by decide +kernel, hle hroom, hrefused _ (Nat.lt_succ_self _),
    hbuffer _ (Nat.lt_succ_self _), hlabel⟩

/-- Labels that are made are not held to the limit: one that follows a reservation of all labels is
beyond it, and so are those of a template that has more labels than there are left. -/
theorem exists_beyond_limit :
    labelLimit < (BufferOp.attemptAll [.reserve labelLimit, .newLabel] .empty).labels.size ∧
    ∀ (t : Template) (operands : List Operand) (info infoAfter : Option DebugInfo) (d : Draft),
      labelLimit < d.buffer.labels.size + t.labelCount →
      labelLimit < ((DraftStep.operation (.template t operands info infoAfter)).attempt
        d).buffer.labels.size := by
  constructor
  · have hreserved : ((BufferOp.reserve labelLimit).attempt .empty).labels.size = labelLimit := by
      rw [BufferOp.attempt_eq_final, BufferOp.run,
        final_of_ok (reserveLabels_of_le (Nat.le_refl _)), size_withLabels]
      rfl
    change labelLimit <
      (BufferOp.newLabel.attempt ((BufferOp.reserve labelLimit).attempt .empty)).labels.size
    rw [BufferOp.size_attempt_newLabel, hreserved]
    exact Nat.lt_succ_self _
  · intro t operands info infoAfter d hlimit
    refine Nat.lt_of_lt_of_le hlimit
      (Nat.le_trans ?_ (Lower.size_le_operation (.template t operands info infoAfter) d))
    exact Lower.le_size_template t operands info infoAfter { d with current := "xir" }

end MachineCode
