import MachineCode.Proofs.Execution.Installations

/-! Entering a method. Its prologue stands at the start of the image: it touches the stack if that
is asked for, and sets up the frame; nothing else of it is code. -/
namespace MachineCode

open X64 Lower Chunk

/-- A method is lowered for a valid frame only. -/
theorem Draft.fault?_of_start {target : Target} {frame : Frame} {name : String} {id : Option UInt32}
    {d : Draft} (h : Draft.start target frame name id = .ok d) : frame.fault? = none := by
  unfold Draft.start at h
  split at h
  · cases h
  · assumption

namespace Lower

/-- The code of the prologue. -/
def enterFrame : Lower Unit := do
  let d ← get
  if d.target.options.useStackBanging then bangStack
  pushFrame

theorem does_enterFrame {C : Context} {e : Effect} (h : e.Open) : Does C e enterFrame := by
  refine lowers_get.andThen fun d => ?_
  dsimp only
  split
  · exact (does_bangStack h).andThen fun _ => does_pushFrame h
  · exact does_pushFrame h

/-- Moves the stack pointer down by the size of the frame. -/
def allocateFrame (size : Nat) : Lower Unit := do
  if 0 < size then
    match int32? size with
    | none => throw (.invalidFrame s!"frame size {size}")
    | some imm => emit (.aluImm .sub true (.reg .rsp) imm)

/-- What is stored to the new frame. -/
def fillFrame (zap : Bool) (size : Nat) : Lower Unit := do
  if zap then (List.range ((size + 3) / 4)).forM fun i => emit (zapInstr (4 * i))
  forSaved (.store true) (.movsStore true)

theorem pushFrame_eq : pushFrame = get >>= fun d =>
    allocateFrame d.frame.size >>= fun _ =>
      fillFrame d.target.options.zapStackOnEntry d.frame.size := by
  unfold pushFrame
  refine congrArg (get >>= ·) (funext fun d => ?_)
  change (if 0 < d.frame.size then _ else _) = _
  by_cases hsize : 0 < d.frame.size
  · rw [if_pos hsize, allocateFrame, if_pos hsize]
    cases int32? d.frame.size <;> rfl
  · rw [if_neg hsize, allocateFrame, if_neg hsize, pure_bind, fillFrame]

theorem does_fillFrame {C : Context} {e : Effect} (h : e.Open) (zap : Bool) (size : Nat) :
    Does C e (fillFrame zap size) := by
  have hsave : Does C e (forSaved (.store true) (.movsStore true)) :=
    does_forSaved h (fun _ _ => rfl) fun _ _ => rfl
  cases zap
  · exact hsave
  · exact (does_forM fun i _ => does_zap h (4 * i)).andThen fun _ => hsave

/-- What the prologue records behind its code. -/
def noteEntry (d : Draft) (start : Nat) : Lower Unit := do
  let stop ← position
  if let some id := d.target.options.verifiedEntryMark then record (SideTables.recordMark stop id)
  log (.prologue d.name start stop)

theorem does_noteEntry {C : Context} (d : Draft) (start : Nat) :
    Does C .anything (noteEntry d start) := by
  unfold noteEntry
  cases d.target.options.verifiedEntryMark with
  | none => exact finds_position.lowers.andThen fun stop => does_log _
  | some id => exact does_mark trivial fun stop => does_log _

theorem noteEntry_eq_ok {d d₁ d₂ : Draft} {start : Nat} (hrun : noteEntry d start d₁ = .ok () d₂) :
    d₂.buffer = d₁.buffer := by
  obtain ⟨stop, d₃, hposition, hrun⟩ := Step.bind_eq_ok.mp hrun
  obtain ⟨-, rfl⟩ := position_eq_ok.mp hposition
  cases hid : d.target.options.verifiedEntryMark with
  | none =>
    rw [hid] at hrun
    cases hrun
    rfl
  | some id =>
    rw [hid] at hrun
    obtain ⟨_, d₄, hmark, hlog⟩ := Step.bind_eq_ok.mp hrun
    obtain ⟨t, -, rfl⟩ := record_eq_ok.mp hmark
    cases hlog
    rfl

theorem prologue_run (d : Draft) : prologue d =
    (enterFrame >>= fun _ => noteEntry { d with current := "prologue" } d.buffer.position)
      { d with current := "prologue" } := by
  unfold prologue enterFrame noteEntry
  rw [bind_assoc]
  refine (Step.bind_of_ok rfl).trans ((Step.bind_of_ok rfl).trans ?_)
  refine (Step.get_bind _ _).trans (.trans ?_ (Step.get_bind _ _).symm)
  dsimp only
  split
  · exact (congrFun (bind_assoc _ _ _) _).symm
  · rfl

end Lower

/-! ### The prologue in its place -/

namespace Installation

variable (I : Installation)

/-- The code of the prologue goes up to this position. -/
def HasPrologue (stop : Nat) : Prop :=
  ∃ d before after, I.Starts d ∧ preparation I.source.constants I.source.ops d = .ok () before ∧
    prologue before = .ok () after ∧ after.buffer.position = stop

theorem fault?_frame : I.source.frame.fault? = none := by
  obtain ⟨d, -, hd, -⟩ := I.exists_method
  exact Draft.fault?_of_start hd

theorem exists_hasPrologue : ∃ stop, I.HasPrologue stop := by
  obtain ⟨last, d, hd, hbody⟩ := I.exists_ends
  obtain ⟨_, before, hprepare, hbody⟩ := Step.bind_eq_ok.mp (body_eq _ _ ▸ hbody)
  obtain ⟨_, _, hsources, -⟩ := Step.bind_eq_ok.mp hbody
  rw [List.forM_eq_forM, List.forM_cons] at hsources
  obtain ⟨_, after, hprologue, -⟩ := Step.bind_eq_ok.mp hsources
  exact ⟨_, d, before, after, hd, hprepare, hprologue, rfl⟩

variable {I}

/-- What the prologue lays down stands at the start of the installed method. -/
theorem HasPrologue.hosts {stop : Nat} {K : Site.Claim} (h : I.HasPrologue stop)
    (hlays : ∀ C, C.frame = I.source.frame → C.target = I.target →
      Lays I.site C enterFrame fun _ => K) :
    ∃ pre new post final, I.site.Hosts (pre ++ (new ++ post)) final ∧
    K pre new final ∧ extent pre = 0 ∧
      extent (pre ++ new) = stop := by
  obtain ⟨d, before, after, hd, hprepare, hprologue, rfl⟩ := h
  obtain ⟨last, hlast⟩ := I.exists_ends
  have hstart : before.buffer.position = 0 := by
    obtain ⟨hreserve, -⟩ := preparation_eq_ok hd hprepare
    rw [CodeBuffer.position, CodeBuffer.reserveLabels_eq_ok hreserve]
    rfl
  have hsources : Source.prologue :: I.source.ops.map .operation =
    [] ++ Source.prologue :: I.source.ops.map .operation := rfl
  have hreach : Reaches I.source.constants I.source.ops d .prologue before :=
    .front hsources ((Step.bind_of_ok hprepare).trans rfl)
  have hrun := hprologue
  rw [prologue_run] at hrun
  obtain ⟨_, d₁, henter, hnote⟩ := Step.bind_eq_ok.mp hrun
  have hnamed : (Context.of { before with current := "prologue" }).Holds
      { before with current := "prologue" } :=
    Context.holds_of ((hd.completes hreach hprologue).2.1.renamed "prologue").mark
  have hd₁ := ((does_enterFrame Effect.open_anything).run hnamed henter).2.1
  have hback : d₁.Onward after := (does_noteEntry _ _).onward hd₁ hnote
  obtain ⟨pre, new, post, hhosts, hclaim, hpre, hnew⟩ :=
    hosts_of_reaches hd hlast hreach hprologue henter hback hlays
  refine ⟨pre, new, post, last, hhosts, hclaim, hpre.trans hstart, ?_⟩
  rw [noteEntry_eq_ok hnote, hnew]

end Installation

end MachineCode
