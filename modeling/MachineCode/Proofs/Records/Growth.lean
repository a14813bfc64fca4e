import MachineCode.Proofs.Emission.Finished
import MachineCode.Proofs.Failures.Methods
import MachineCode.Proofs.Records.Collisions
import MachineCode.Proofs.References.Stock

/-! What has been recorded stays. Records of calls, of faults and of slots are only added. -/
namespace MachineCode

open X64 Lower SideTables

variable {α β : Type}

/-! ### Tables -/

/-- The records about calls, faults and slots are among those of the other tables. -/
structure SideTables.Within (t t' : SideTables) : Prop where
  callSites : ∀ x ∈ t.callSites, x ∈ t'.callSites
  dataObjects : ∀ x ∈ t.dataObjects, x ∈ t'.dataObjects
  safepoints : ∀ x ∈ t.safepoints, x ∈ t'.safepoints
  implicitExceptions : ∀ x ∈ t.implicitExceptions, x ∈ t'.implicitExceptions
  exceptionHandlers : ∀ x ∈ t.exceptionHandlers, x ∈ t'.exceptionHandlers

namespace SideTables.Within

variable {t t' t'' : SideTables}

theorem refl (t : SideTables) : t.Within t :=
  ⟨fun _ => id, fun _ => id, fun _ => id, fun _ => id, fun _ => id⟩

theorem trans (h : t.Within t') (h' : t'.Within t'') : t.Within t'' where
  callSites x hx := h'.callSites x (h.callSites x hx)
  dataObjects x hx := h'.dataObjects x (h.dataObjects x hx)
  safepoints x hx := h'.safepoints x (h.safepoints x hx)
  implicitExceptions x hx := h'.implicitExceptions x (h.implicitExceptions x hx)
  exceptionHandlers x hx := h'.exceptionHandlers x (h.exceptionHandlers x hx)

end SideTables.Within

/-! ### Steps -/

/-- Every successful run only adds records. -/
def Accrues (x : Lower α) : Prop := ∀ d a d', x d = .ok a d' → d.tables.Within d'.tables

section

variable {x : Lower α}

theorem accrues_of_same (h : ∀ d a d', x d = .ok a d' → d'.tables = d.tables) : Accrues x := by
  intro d a d' hrun
  rw [h d a d' hrun]
  exact .refl _

theorem Accrues.bind {f : α → Lower β} (hx : Accrues x) (hf : ∀ a, Accrues (f a)) :
    Accrues (x >>= f) := by
  intro d b d'' hrun
  obtain ⟨a, d', hx', hf'⟩ := Step.bind_eq_ok.mp hrun
  exact (hx d a d' hx').trans (hf a d' b d'' hf')

theorem Accrues.discard (hx : Accrues x) : Accrues (discard x) := by
  intro d u d' hrun
  obtain ⟨a, hrun⟩ := Step.discard_eq_ok.mp hrun
  exact hx d a d' hrun

theorem accrues_pure (a : α) : Accrues (pure a : Lower α) :=
  accrues_of_same fun _ _ _ h => by cases h; rfl

theorem accrues_get : Accrues get := accrues_of_same fun _ _ _ h => by cases h; rfl

theorem accrues_position : Accrues position := accrues_get.bind fun _ => accrues_pure _

theorem accrues_modify {f : Draft → Draft}
    (hf : ∀ d, (f d).tables = d.tables) : Accrues (modify f) :=
  accrues_of_same fun d _ _ h => by cases h; exact hf d

theorem accrues_throw (err : Error) : Accrues (throw err : Lower α) :=
  fun _ _ _ hrun => absurd hrun Step.throw_ne_ok

theorem accrues_onBuffer (y : BufferStep α) : Accrues (onBuffer y) :=
  accrues_of_same fun _ _ _ h => by
    obtain ⟨b, -, rfl⟩ := onBuffer_eq_ok.mp h
    rfl

theorem accrues_onData (f : DataSection → α × DataSection) : Accrues (onData f) :=
  accrues_of_same fun _ _ _ h => by
    obtain ⟨-, rfl⟩ := onData_eq_ok.mp h
    rfl

theorem accrues_emitBytes (bytes : List UInt8) : Accrues (emitBytes bytes) := accrues_onBuffer _

theorem accrues_forM {xs : List α} {f : α → Lower Unit} (hf : ∀ a, Accrues (f a)) :
    Accrues (xs.forM f) := by
  induction xs with
  | nil => exact accrues_pure ()
  | cons a xs ih => exact Accrues.bind (hf a) fun _ => ih

theorem accrues_record {f : RecordStep Unit}
    (hf : ∀ t t', f t = .ok () t' → t.Within t') : Accrues (record f) := by
  intro d u d' hrun
  obtain ⟨t, ht, rfl⟩ := record_eq_ok.mp hrun
  exact hf _ t ht

end

theorem accrues_emitAt (l : Location) (i : Mem → Instr) : Accrues (emitAt l i) := by
  intro d pc d' hrun
  obtain ⟨-, t, rfl, hplain, hdata⟩ := emitAt_eq_ok hrun
  cases hl : l.data with
  | none =>
    rw [hplain hl]
    exact .refl _
  | some offset =>
    obtain ⟨k, -, ht⟩ := hdata offset hl
    rw [recordData_eq_ok ht]
    exact ⟨fun _ => id, fun _ => id, fun _ => id, fun _ => id, fun _ => id⟩

theorem accrues_emitLinked {i : Instr} {f : Nat → RecordStep Unit}
    (hf : ∀ field t t', f field t = .ok () t' → t.Within t') : Accrues (emitLinked i f) := by
  intro d u d' hrun
  obtain ⟨t, ht, rfl⟩ := emitLinked_eq_ok hrun
  exact hf _ _ t ht

/-- A record in one of the other tables. -/
theorem SideTables.Within.of_eq {t t' : SideTables}
    (h : t'.callSites = t.callSites ∧ t'.dataObjects = t.dataObjects ∧
      t'.safepoints = t.safepoints ∧ t'.implicitExceptions = t.implicitExceptions ∧
      t'.exceptionHandlers = t.exceptionHandlers) :
    t.Within t' := by
  obtain ⟨h₀, h₁, h₂, h₃, h₄⟩ := h
  exact ⟨fun _ => h₀ ▸ id, fun _ => h₁ ▸ id, fun _ => h₂ ▸ id, fun _ => h₃ ▸ id, fun _ => h₄ ▸ id⟩

theorem Emission.accrues (x : Emission) : Accrues x.perform := by
  cases x with
  | emit i => exact accrues_emitBytes _
  | «at» l i => exact (accrues_emitAt l i).discard

theorem accrues_bind (l : Label) : Accrues (Lower.bind l) := by
  refine (accrues_onBuffer _).bind fun fresh => ?_
  cases fresh with
  | true => exact accrues_position.bind fun _ => accrues_modify fun _ => rfl
  | false => exact accrues_pure ()

theorem Trailer.accrues (x : Trailer) : Accrues x.perform := by
  cases x with
  | none => exact accrues_pure ()
  | store x => exact x.accrues
  | bind l => exact accrues_bind l
  | refuse err => exact accrues_throw err

theorem accrues_recordHandlers (pc : Nat) (info : DebugInfo) :
    Accrues (record (SideTables.recordHandlers pc info)) := by
  refine accrues_record fun t t' ht => ?_
  obtain ⟨seen, rfl⟩ := recordHandlers_eq_ok ht
  refine ⟨fun _ => id, fun _ => id, fun _ => id, fun _ => id, fun x hx => ?_⟩
  rw [← Array.mem_toList_iff, Array.toList_appendList]
  exact List.mem_append_left _ (Array.mem_toList_iff.mpr hx)

theorem accrues_recordTrap (pc : Nat) (info : DebugInfo) : Accrues (recordTrap pc info) := by
  refine (accrues_record fun _ _ h => ?_).bind fun _ => accrues_recordHandlers pc info
  rw [eq_of_keyed h]
  exact ⟨fun _ => id, fun _ => id, fun _ => id, fun _ => Array.mem_push_of_mem _, fun _ => id⟩

theorem accrues_recordCall {start : Nat} {target : Option CallTarget} {info : Option DebugInfo}
    {direct : Bool} : Accrues (recordCall start target info direct) := by
  refine accrues_position.bind fun pc => (accrues_record fun _ _ h => ?_).bind fun _ => ?_
  · rw [eq_of_keyed h]
    exact ⟨fun _ => Array.mem_push_of_mem _, fun _ => id, fun _ => id, fun _ => id, fun _ => id⟩
  · cases info with
    | none => exact accrues_pure ()
    | some info => exact accrues_recordHandlers _ info

theorem accrues_nopAfterCall : Accrues nopAfterCall := by
  refine accrues_get.bind fun d => ?_
  split
  · exact accrues_emitBytes _
  · exact accrues_pure ()

theorem Action.accrues (a : Action) : Accrues a.perform := by
  unfold Action.perform
  cases a with
  | instr x => exact x.accrues
  | embed o dst =>
    exact accrues_emitLinked fun _ _ _ h => by
      rw [eq_of_keyed h]; exact .of_eq ⟨rfl, rfl, rfl, rfl, rfl⟩
  | slot o =>
    refine (accrues_onData _).bind fun r => ?_
    dsimp only
    split
    · refine accrues_record fun _ _ h => ?_
      rw [eq_of_keyed h]
      exact ⟨fun _ => id, fun _ => Array.mem_push_of_mem _, fun _ => id, fun _ => id, fun _ => id⟩
    · exact accrues_pure ()
  | constant bytes align => exact (accrues_onData _).discard
  | reserve count => exact accrues_onBuffer _
  | fresh n => exact Accrues.discard (accrues_of_same fun _ _ _ h => by cases h; rfl)
  | bind l => exact accrues_bind l
  | jump cond l => cases cond <;> exact accrues_onBuffer _
  | jumpShort cond l => exact accrues_onBuffer _
  | pad n | raw bytes => exact accrues_emitBytes _
  | table low high targets =>
    exact (accrues_emitBytes _).bind fun _ =>
      (accrues_position.bind fun _ => accrues_emitBytes _).bind fun _ =>
      accrues_position.bind fun _ => (accrues_forM fun _ => accrues_onBuffer _).bind fun _ =>
      accrues_record fun _ _ h => by rw [eq_of_keyed h]; exact .of_eq ⟨rfl, rfl, rfl, rfl, rfl⟩
  | directCall target info =>
    exact accrues_position.bind fun _ =>
      (accrues_emitLinked fun _ _ _ h => by
        rw [eq_of_keyed h]; exact .of_eq ⟨rfl, rfl, rfl, rfl, rfl⟩).bind fun _ =>
      accrues_recordCall.bind fun _ => accrues_nopAfterCall
  | indirectCall r target info =>
    exact accrues_position.bind fun _ => (accrues_emitBytes _).bind fun _ =>
      accrues_recordCall.bind fun _ => accrues_nopAfterCall
  | safepoint info =>
    refine accrues_position.bind fun _ =>
      (accrues_record fun _ _ h => ?_).bind fun _ => accrues_emitBytes _
    rw [eq_of_keyed h]
    exact ⟨fun _ => id, fun _ => id, fun _ => Array.mem_push_of_mem _, fun _ => id, fun _ => id⟩
  | trap x after info =>
    exact accrues_position.bind fun _ => x.accrues.bind fun _ => after.accrues.bind fun _ =>
      accrues_recordTrap _ info
  | mark id =>
    exact accrues_position.bind fun _ =>
      accrues_record fun _ _ h => by
        rw [(recordMark_eq_ok.mp h).2]
        exact .of_eq ⟨rfl, rfl, rfl, rfl, rfl⟩
  | enqueue | log event | report f | name op => exact accrues_modify fun _ => rfl
  | refuse err => exact accrues_throw err

/-- A step that is made of actions only adds records. -/
theorem Lowers.accrues {C : Context} {e : Effect} {x : Lower α} {p : α → Prop} {d d' : Draft}
    {a : α} (hx : Lowers C e x p) (hd : C.Holds d)
    (hrun : x d = .ok a d') : d.tables.Within d'.tables := by
  obtain ⟨-, -, as, -, hperform⟩ := hx.run hd hrun
  exact accrues_forM Action.accrues d () d' hperform

/-! ### Drafts on the way to a method -/

/-- The later draft continues the earlier one. -/
structure Draft.Onward (d d' : Draft) : Prop where
  frame : d'.frame = d.frame
  target : d'.target = d.target
  adds : ∀ cs, Sound cs d → (∃ new, Sound (cs ++ new) d') ∧
    ∀ l p, d.buffer.labelOffset l = some p → d'.buffer.labelOffset l = some p
  accrues : d.tables.Within d'.tables
  stocks : d.Stocks d'

namespace Draft.Onward

variable {d d' d'' : Draft}

theorem trans (h : d.Onward d') (h' : d'.Onward d'') : d.Onward d'' where
  frame := h'.frame.trans h.frame
  target := h'.target.trans h.target
  adds cs hs := by
    obtain ⟨⟨new, hs'⟩, hlabels⟩ := h.adds cs hs
    obtain ⟨⟨new', hs''⟩, hlabels'⟩ := h'.adds _ hs'
    exact ⟨⟨new ++ new', by rwa [← List.append_assoc]⟩, fun l p hl => hlabels' l p (hlabels l p hl)⟩
  accrues := h.accrues.trans h'.accrues
  stocks := h.stocks.trans h'.stocks

/-- The journal, the queue and the name of the operation do not matter. -/
theorem of_same (hframe : d'.frame = d.frame) (htarget : d'.target = d.target)
    (hbuffer : d'.buffer = d.buffer) (hdata : d'.data = d.data)
    (htables : d'.tables = d.tables) : d.Onward d' where
  frame := hframe
  target := htarget
  adds cs hs := by
    refine ⟨⟨[], ?_⟩, fun l p hl => hbuffer ▸ hl⟩
    rw [List.append_nil]
    exact ⟨hbuffer ▸ hs.written, hs.valid, hbuffer ▸ hs.labels, htables ▸ hs.noted,
      by rw [htables, hdata]; exact hs.slots⟩
  accrues := htables ▸ .refl _
  stocks := .of_same hdata (by rw [htables])

end Draft.Onward

/-- A step that is made of actions continues the draft. -/
theorem Lowers.onward {C : Context} {e : Effect} {x : Lower α} {p : α → Prop} {d d' : Draft} {a : α}
    (hx : Lowers C e x p) (hd : C.Holds d) (hrun : x d = .ok a d') : d.Onward d' where
  frame := (hx.run hd hrun).2.1.frame.trans hd.frame.symm
  target := (hx.run hd hrun).2.1.target.trans hd.target.symm
  adds cs hs := by
    obtain ⟨new, hs', -⟩ := hx.adds hd hrun hs
    obtain ⟨ops, hops, -⟩ := hx.transcribed hd hrun
    obtain ⟨qs, -, hextends⟩ := BufferOp.written_runAll hs.written hops
    exact ⟨⟨new, hs'⟩, fun l p hl => hextends l p hl⟩
  accrues := hx.accrues hd hrun
  stocks := hx.stocks hd hrun

theorem onward_lower {s : Source} {d d' : Draft} (hmark : d.buffer.mark = none)
    (hrun : s.lower d = .ok () d') : d.Onward d' ∧ d'.buffer.mark = none :=
  ⟨(s.does_lower d).onward (Context.holds_of hmark) hrun,
    ((s.does_lower d).run (Context.holds_of hmark) hrun).2.1.mark⟩

/-- Sources that are lowered one after the other. -/
theorem onward_sources {sources : List Source} {d d' : Draft} (hmark : d.buffer.mark = none)
    (hrun : sources.forM Source.lower d = .ok () d') : d.Onward d' ∧ d'.buffer.mark = none := by
  induction sources generalizing d with
  | nil =>
    cases hrun
    exact ⟨.of_same rfl rfl rfl rfl rfl, hmark⟩
  | cons s sources ih =>
    obtain ⟨_, d₁, h₁, hrun⟩ := Step.bind_eq_ok.mp hrun
    obtain ⟨honward, hmark₁⟩ := onward_lower hmark h₁
    obtain ⟨honward', hmark'⟩ := ih hmark₁ hrun
    exact ⟨honward.trans honward', hmark'⟩

theorem onward_slowPaths {d d' : Draft} (hmark : d.buffer.mark = none)
    (hrun : slowPaths d = .ok () d') :
    d.Onward d' ∧ d'.buffer.mark = none := by
  let taken : Draft := { d with pending := #[] }
  have htaken : d.Onward taken := .of_same rfl rfl rfl rfl rfl
  obtain ⟨honward, hmark'⟩ := onward_sources (d := taken) hmark (slowPaths_eq_ok hrun)
  exact ⟨htaken.trans honward, hmark'⟩

/-- A draft that a method is made from: it is between two instructions, and leads to the last
one. -/
structure Draft.Completes (d : Draft) (m : Method) : Prop where
  mark : d.buffer.mark = none
  sound : ∃ cs, Sound cs d
  stocked : d.Stocked
  final : ∃ last, d.Onward last ∧ Completed m last

/-- A draft that continues one of a method, and leads to the last one of it, is one itself. -/
theorem Draft.Completes.of_onward {d d' : Draft} {m : Method} (h : d.Completes m)
    (honward : d.Onward d') (hmark : d'.buffer.mark = none)
    (hfinal : ∃ last, d'.Onward last ∧ Completed m last) : d'.Completes m := by
  obtain ⟨cs, hs⟩ := h.sound
  obtain ⟨⟨new, hs'⟩, -⟩ := honward.adds cs hs
  exact ⟨hmark, ⟨_, hs'⟩, honward.stocks.stocked h.stocked, hfinal⟩

/-- The name of the operation does not matter. -/
theorem Draft.Completes.renamed {d : Draft} {m : Method} (h : d.Completes m) (name : String) :
    Draft.Completes { d with current := name } m := by
  obtain ⟨last, honward, hcompleted⟩ := h.final
  have hback : Draft.Onward { d with current := name } d := .of_same rfl rfl rfl rfl rfl
  exact h.of_onward (.of_same rfl rfl rfl rfl rfl) h.mark ⟨last, hback.trans honward, hcompleted⟩

/-- A draft that has just been started has nothing in its data section. -/
theorem stocked_start {target : Target} {frame : Frame} {name : String} {id : Option UInt32}
    {d : Draft} (h : Draft.start target frame name id = .ok d) : d.Stocked := by
  obtain ⟨journal, rfl⟩ := Draft.start_eq_ok h
  exact ⟨DataSection.placed_empty, nofun, nofun, nofun, nofun⟩

/-- What the lowering of a method gets to lies on the way from the first draft of the method to the
last one. -/
theorem Reaches.onward {target : Target} {frame : Frame} {name : String} {id : Option UInt32}
    {constants : List DataConstant} {ops : List Operation} {d e e' last : Draft} {s : Source}
    (hd : Draft.start target frame name id = .ok d) (hbody : body constants ops d = .ok () last)
    (hreach : Reaches constants ops d s e) (hlower : s.lower e = .ok () e') :
    d.Onward e ∧ e.buffer.mark = none ∧ e'.Onward last := by
  rw [body_eq] at hbody
  obtain ⟨_, d₁, hprepare, hbody⟩ := Step.bind_eq_ok.mp hbody
  obtain ⟨_, d₂, hfront, hbody⟩ := Step.bind_eq_ok.mp hbody
  obtain ⟨_, d₃, hback, hempty⟩ := Step.bind_eq_ok.mp hbody
  have hholds : (Context.of d).Holds d := by
    obtain ⟨journal, rfl⟩ := Draft.start_eq_ok hd
    exact Context.holds_of rfl
  have hprepared :=
    does_preparation (C := Context.of d) (e := (Source.prologue).effect 0) constants ops
  have honward₁ := hprepared.onward hholds hprepare
  have hmark₁ := (hprepared.run hholds hprepare).2.1.mark
  obtain ⟨-, hmark₂⟩ := onward_sources hmark₁ hfront
  obtain ⟨honward₃, hmark₃⟩ := onward_slowPaths hmark₂ hback
  obtain ⟨honward₄, -⟩ := onward_slowPaths hmark₃ hempty
  have hsplit : ∀ {pre post sources : List Source} {a b : Draft}, sources = pre ++ s :: post →
      a.buffer.mark = none → pre.forM Source.lower a = .ok () e →
      sources.forM Source.lower a = .ok () b →
      a.Onward e ∧ e.buffer.mark = none ∧ e'.Onward b := by
    rintro pre post sources a b rfl hmark hpre hall
    obtain ⟨honward, hmark⟩ := onward_sources hmark hpre
    rw [List.forM_eq_forM, List.forM_append, ← List.forM_eq_forM, Step.bind_of_ok hpre] at hall
    obtain ⟨_, e'', hs, hpost⟩ := Step.bind_eq_ok.mp hall
    cases hlower.symm.trans hs
    exact ⟨honward, hmark, (onward_sources (onward_lower hmark hlower).2 hpost).1⟩
  cases hreach with
  | front hsources hrun =>
    obtain ⟨_, d₁', hprepare', hrun⟩ := Step.bind_eq_ok.mp hrun
    cases hprepare.symm.trans hprepare'
    obtain ⟨hbefore, hmark, hafter⟩ := hsplit hsources hmark₁ hrun hfront
    exact ⟨honward₁.trans hbefore, hmark, hafter.trans (honward₃.trans honward₄)⟩
  | @back pre post path d₂' e hfront' hpaths hrun =>
    rw [Step.bind_of_ok hprepare] at hfront'
    cases hfront.symm.trans hfront'
    have hsources : d₂.pending.toList.map Source.slowPath = _ := congrArg (List.map _) hpaths
    rw [List.map_append, List.map_cons] at hsources
    let taken : Draft := { d₂ with pending := #[] }
    have honward₂ : d₁.Onward d₂ := (onward_sources hmark₁ hfront).1
    have htaken : d₂.Onward taken := .of_same rfl rfl rfl rfl rfl
    have hpre : (pre.map Source.slowPath).forM Source.lower taken = .ok () e := by
      rw [List.forM_eq_forM, List.forM_map]
      exact hrun
    obtain ⟨hbefore, hmark, hafter⟩ :=
      hsplit (a := taken) hsources hmark₂ hpre (slowPaths_eq_ok hback)
    exact ⟨honward₁.trans (honward₂.trans (htaken.trans hbefore)), hmark, hafter.trans honward₄⟩

/-- What the lowering of a method gets to leads to the method, before and after. -/
theorem Reaches.completes {target : Target} {frame : Frame} {name : String} {id : Option UInt32}
    {constants : List DataConstant} {ops : List Operation} {d d' e e' : Draft} {m : Method}
    {s : Source} (hd : Draft.start target frame name id = .ok d)
    (hm : method constants ops d = .ok m d') (hreach : Reaches constants ops d s e)
    (hlower : s.lower e = .ok () e') :
    d.Onward e ∧ e.Completes m ∧ e'.Completes m := by
  obtain ⟨last, hbody, -, -, hcompleted⟩ := method_eq_ok hm
  obtain ⟨hbefore, hmark, hafter⟩ := hreach.onward hd hbody hlower
  obtain ⟨honward, hmark'⟩ := onward_lower hmark hlower
  have hstart : d.buffer.mark = none := by
    obtain ⟨journal, rfl⟩ := Draft.start_eq_ok hd
    rfl
  have hcompletes : d.Completes m :=
    ⟨hstart, ⟨[], sound_start hd⟩, stocked_start hd, last,
      hbefore.trans (honward.trans hafter), hcompleted⟩
  have he := hcompletes.of_onward hbefore hmark ⟨last, honward.trans hafter, hcompleted⟩
  exact ⟨hbefore, he, he.of_onward honward hmark' ⟨last, hafter, hcompleted⟩⟩

end MachineCode
