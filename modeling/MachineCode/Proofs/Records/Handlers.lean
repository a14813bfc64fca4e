import MachineCode.Proofs.Effects.Runs
import MachineCode.Proofs.Emission.Actions

/-! Exception edges. Every edge that is recorded is an edge of an operation's debug information. -/
namespace MachineCode

open X64 Lower SideTables

variable {α β : Type} {e : Effect}

/-- The recorded edges are ones that the effect allows. -/
def Listed (e : Effect) (d : Draft) : Prop := ∀ x ∈ d.tables.exceptionHandlers, e.handlers x.handler

/-- The step records no edges but those that the effect allows. -/
def Lists (e : Effect) (x : Lower α) : Prop :=
  ∀ d a d', Listed e d → x d = .ok a d' → Listed e d'

section

variable {x : Lower α}

theorem lists_of_same (h : ∀ d a d', x d = .ok a d' →
    d'.tables.exceptionHandlers = d.tables.exceptionHandlers) : Lists e x := by
  intro d a d' hd hrun
  unfold Listed
  rw [h d a d' hrun]
  exact hd

theorem Lists.bind {f : α → Lower β} (hx : Lists e x) (hf : ∀ a, Lists e (f a)) :
    Lists e (x >>= f) := by
  intro d b d'' hd hrun
  obtain ⟨a, d', hx', hf'⟩ := Step.bind_eq_ok.mp hrun
  exact hf a d' b d'' (hx d a d' hd hx') hf'

theorem Lists.discard (hx : Lists e x) : Lists e (discard x) := by
  intro d u d' hd hrun
  obtain ⟨a, hrun⟩ := Step.discard_eq_ok.mp hrun
  exact hx d a d' hd hrun

theorem lists_pure (a : α) : Lists e (pure a : Lower α) :=
  lists_of_same fun _ _ _ h => by cases h; rfl

theorem lists_get : Lists e get := lists_of_same fun _ _ _ h => by cases h; rfl

theorem lists_position : Lists e position := lists_get.bind fun _ => lists_pure _

theorem lists_modify {f : Draft → Draft} (hf : ∀ d, (f d).tables = d.tables) : Lists e (modify f) :=
  lists_of_same fun d _ _ h => by cases h; rw [hf]

theorem lists_throw (err : Error) : Lists e (throw err : Lower α) :=
  fun _ _ _ _ hrun => absurd hrun Step.throw_ne_ok

theorem lists_onBuffer (y : BufferStep α) : Lists e (onBuffer y) :=
  lists_of_same fun _ _ _ h => by
    obtain ⟨b, -, rfl⟩ := onBuffer_eq_ok.mp h
    rfl

theorem lists_emitBytes (bytes : List UInt8) : Lists e (emitBytes bytes) := lists_onBuffer _

theorem lists_onData (f : DataSection → α × DataSection) : Lists e (onData f) :=
  lists_of_same fun _ _ _ h => by
    obtain ⟨-, rfl⟩ := onData_eq_ok.mp h
    rfl

theorem lists_forM {γ : Type} {xs : List γ} {f : γ → Lower Unit} (hf : ∀ a, Lists e (f a)) :
    Lists e (xs.forM f) := by
  induction xs with
  | nil => exact lists_pure ()
  | cons a xs ih => exact Lists.bind (hf a) fun _ => ih

/-- A record in another table. -/
theorem lists_record {f : RecordStep Unit}
    (hf : ∀ t t', f t = .ok () t' → t'.exceptionHandlers = t.exceptionHandlers) :
    Lists e (record f) :=
  lists_of_same fun _ _ _ h => by
    obtain ⟨t, ht, rfl⟩ := record_eq_ok.mp h
    exact hf _ t ht

end

theorem lists_recordHandlers {pc : Nat} {info : DebugInfo} (h : info.Within e) :
    Lists e (record (SideTables.recordHandlers pc info)) := by
  intro d u d' hd hrun
  obtain ⟨t, ht, rfl⟩ := record_eq_ok.mp hrun
  obtain ⟨seen, rfl⟩ := recordHandlers_eq_ok ht
  intro x hx
  have hx := Array.mem_toList_iff.mpr hx
  rw [Array.toList_appendList, List.mem_append, Array.mem_toList_iff] at hx
  obtain hx | hx := hx
  · exact hd x hx
  · obtain ⟨edge, hedge, rfl⟩ := List.mem_map.mp hx
    exact h _ (List.mem_map_of_mem hedge)

theorem lists_emitAt (l : Location) (i : Mem → Instr) : Lists e (emitAt l i) := by
  refine lists_of_same fun d pc d' hrun => ?_
  obtain ⟨-, t, rfl, hplain, hdata⟩ := emitAt_eq_ok hrun
  cases hl : l.data with
  | none => rw [hplain hl]
  | some offset =>
    obtain ⟨k, -, ht⟩ := hdata offset hl
    rw [recordData_eq_ok ht]

theorem lists_emitLinked {i : Instr} {f : Nat → RecordStep Unit}
    (hf : ∀ field t t', f field t = .ok () t' → t'.exceptionHandlers = t.exceptionHandlers) :
    Lists e (emitLinked i f) := by
  refine lists_of_same fun d u d' hrun => ?_
  obtain ⟨t, ht, rfl⟩ := emitLinked_eq_ok hrun
  exact hf _ _ t ht

theorem Emission.lists (x : Emission) : Lists e x.perform := by
  cases x with
  | emit i => exact lists_emitBytes _
  | «at» l i => exact (lists_emitAt l i).discard

theorem lists_bind (l : Label) : Lists e (Lower.bind l) := by
  refine (lists_onBuffer _).bind fun fresh => ?_
  cases fresh with
  | true => exact lists_position.bind fun _ => lists_modify fun _ => rfl
  | false => exact lists_pure ()

theorem Trailer.lists (x : Trailer) : Lists e x.perform := by
  cases x with
  | none => exact lists_pure ()
  | store x => exact x.lists
  | bind l => exact lists_bind l
  | refuse err => exact lists_throw err

theorem lists_recordCall {start : Nat} {target : Option CallTarget} {info : Option DebugInfo}
    {direct : Bool} (h : ∀ i ∈ info, i.Within e) :
    Lists e (recordCall start target info direct) := by
  refine lists_position.bind fun pc =>
    (lists_record fun _ _ h => by rw [eq_of_keyed h]).bind fun _ => ?_
  cases info with
  | none => exact lists_pure ()
  | some info => exact lists_recordHandlers (h info rfl)

theorem lists_nopAfterCall : Lists e nopAfterCall := by
  refine lists_get.bind fun d => ?_
  split
  · exact lists_emitBytes _
  · exact lists_pure ()

theorem Action.lists {a : Action} (ha : a.Within e) : Lists e a.perform := by
  unfold Action.perform
  cases a with
  | instr x => exact x.lists
  | embed o dst => exact lists_emitLinked fun _ _ _ h => by rw [eq_of_keyed h]
  | slot o =>
    refine (lists_onData _).bind fun r => ?_
    dsimp only
    split
    · exact lists_record fun _ _ h => by rw [eq_of_keyed h]
    · exact lists_pure ()
  | constant bytes align => exact (lists_onData _).discard
  | reserve count => exact lists_onBuffer _
  | fresh n => exact Lists.discard (lists_of_same fun _ _ _ h => by cases h; rfl)
  | bind l => exact lists_bind l
  | jump cond l => cases cond <;> exact lists_onBuffer _
  | jumpShort cond l => exact lists_onBuffer _
  | pad n | raw bytes => exact lists_emitBytes _
  | table low high targets =>
    exact (lists_emitBytes _).bind fun _ =>
      (lists_position.bind fun _ => lists_emitBytes _).bind fun _ =>
      lists_position.bind fun _ => (lists_forM fun _ => lists_onBuffer _).bind fun _ =>
      lists_record fun _ _ h => by rw [eq_of_keyed h]
  | directCall target info =>
    exact lists_position.bind fun _ =>
      (lists_emitLinked fun _ _ _ h => by rw [eq_of_keyed h]).bind fun _ =>
      (lists_recordCall ha.2).bind fun _ => lists_nopAfterCall
  | indirectCall r target info =>
    have hinfo : ∀ i ∈ some info, i.Within e := by
      rintro _ ⟨⟩
      exact ha.2
    exact lists_position.bind fun _ => (lists_emitBytes _).bind fun _ =>
      (lists_recordCall hinfo).bind fun _ => lists_nopAfterCall
  | safepoint info =>
    exact lists_position.bind fun _ =>
      (lists_record fun _ _ h => by rw [eq_of_keyed h]).bind fun _ => lists_emitBytes _
  | trap x after info =>
    exact lists_position.bind fun _ => x.lists.bind fun _ => after.lists.bind fun _ =>
      (lists_record fun _ _ h => by rw [eq_of_keyed h]).bind fun _ => lists_recordHandlers ha.2.2
  | mark id =>
    exact lists_position.bind fun _ => lists_record fun _ _ h => by rw [(recordMark_eq_ok.mp h).2]
  | enqueue | log event | report f | name op => exact lists_modify fun _ => rfl
  | refuse err => exact lists_throw err

/-! ### Methods -/

def SlowPath.handlers : SlowPath → List Label
  | .convertFixup .. => []
  | .template x =>
    (x.info.map DebugInfo.handlers).getD [] ++ (x.infoAfter.map DebugInfo.handlers).getD []

/-- Only exception edges are restricted. -/
def Effect.listing (handlers : Label → Prop) : Effect :=
  .naming (fun _ => True) (fun _ => True) handlers fun path => ∀ l ∈ path.handlers, handlers l

theorem fresh_listing (handlers : Label → Prop) (n : Nat) : (Effect.listing handlers).Fresh n :=
  ⟨fun _ _ => trivial, fun _ _ => trivial⟩

/-- The exception edges in a method's tables are edges of its operations. -/
theorem handlers_of_method {target : Target} {frame : Frame} {name : String} {id : Option UInt32}
    {constants : List DataConstant} {ops : List Operation} {d d' : Draft} {m : Method}
    (hd : Draft.start target frame name id = .ok d) (hm : method constants ops d = .ok m d')
    {x : ExceptionHandler} (hx : x ∈ d'.tables.exceptionHandlers) :
    ∃ op ∈ ops, x.handler ∈ op.labels := by
  let e : Effect := .listing fun l => ∃ op ∈ ops, l ∈ op.labels
  let C : Context := ⟨frame, target, 0⟩
  have hI : ∀ a : Action, a.Within e →
      Triple (Listed e) a.perform (fun _ => Listed e) fun _ _ => True :=
    fun a ha d hd => ⟨fun u d' hrun => Action.lists ha d u d' hd hrun, fun _ _ _ => trivial⟩
  have hopen : e.Open := Effect.open_naming
  have hops : ∀ op ∈ ops, Does C e (Lower.operation op) := by
    intro op hop
    refine does_operation trivial (fresh_listing _ _)
      (hopen.within ⟨fun _ _ => trivial, fun _ _ => trivial, fun l hl => ⟨op, hop, hl⟩,
        fun _ _ _ _ _ _ => trivial, fun _ _ _ _ _ _ _ _ _ _ _ _ _ => nofun,
      fun _ operands _ _ _ micro _ => micro.within_naming operands, ?_⟩)
    rintro t operands info infoAfter rfl labels - l hl
    exact ⟨_, hop, hl⟩
  have hpaths : ∀ path, e.paths path → Does C e (Lower.slowPath path) := by
    intro path hpath
    refine does_slowPath trivial (fresh_listing _ _) ?_
    cases path with
    | convertFixup => exact ⟨trivial, trivial, trivial⟩
    | template x =>
      refine ⟨Template.within_naming ?_ ?_, fun _ _ => trivial, fun _ _ => trivial⟩
      · intro i hi l hl
        exact hpath l (List.mem_append_left _ (by rw [hi]; exact hl))
      · intro i hi l hl
        exact hpath l (List.mem_append_right _ (by rw [hi]; exact hl))
  have hstart : Listed e d := by
    obtain ⟨journal, rfl⟩ := Draft.start_eq_ok hd
    simp [Listed, SideTables.empty]
  have hprologue := Does.triple hI (does_prologue (C := C) hopen fun _ _ => trivial)
  have hmethod : Triple (Covered C e (Listed e)) (method constants ops) _ _ :=
    triple_method hI (fun _ h => h) hpaths hI hprologue hops
  exact ((hmethod d (covered_start hd hstart)).1 m d' hm).1.inv x hx

end MachineCode
