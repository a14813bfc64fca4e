import MachineCode.Proofs.Execution.Faults
import MachineCode.Proofs.Execution.Installations

/-! Code with an instruction that may fault on purpose. Where the instruction starts is recorded
when the code is written; the machine stops there, with nothing changed, or it gets to the end of
the code. -/
namespace MachineCode

open X64 Lower Chunk SideTables
open Machine (Assertion Executes)

variable {α : Type}

/-- What makes code fault: of some cores, the fault of the instruction that faults. -/
abbrev Machine.Hazard := Machine → Option (Word → Fault)

open Machine (Hazard)

namespace Site

variable (S : Site)

/-- From each core as `A` says, the code stops at `pc` where there is a hazard, and elsewhere leads
to its end, with a core as `Q` says beside the first. -/
structure Traps (A : Machine → Prop) (hazard : Hazard) (Q : Assertion) (pc : Nat)
    (pre new : List Chunk) : Prop where
  le : extent pre ≤ pc
  lt : pc < extent (pre ++ new)
  stops : ∀ machine e, S.Stands (extent pre) A machine → hazard machine.core = some e →
    machine.Stops (S.Span (extent pre) (extent (pre ++ new))) (e (S.addressOf pc))
  passes : ∀ machine, S.Stands (extent pre) A machine → hazard machine.core = none → ∃ machine',
    machine.Walks (S.Span (extent pre) (extent (pre ++ new))) machine' ∧
      machine'.rip = S.addressOf (extent (pre ++ new)) ∧ Q machine.core machine'.core

/-- From each core as `A` says the code leads to its end, with a core as `Q` says beside the
first. -/
def Passes (A : Machine → Prop) (Q : Assertion) (pre new : List Chunk) : Prop :=
  ∀ machine, S.Stands (extent pre) A machine → ∃ machine',
    machine.Walks (S.Span (extent pre) (extent (pre ++ new))) machine' ∧
      machine'.rip = S.addressOf (extent (pre ++ new)) ∧ Q machine.core machine'.core

variable {S} {A B : Machine → Prop} {hazard hazard' : Hazard} {Q R : Assertion}
  {L : Label → Assertion} {pc : Nat}
  {pre new new' : List Chunk} {final : Draft}

theorem Span.front {a : Word} (h : S.Span (extent pre) (extent (pre ++ new)) a) :
    S.Span (extent pre) (extent (pre ++ (new ++ new'))) a :=
  h.mono (Nat.le_refl _) (by simp only [extent_append]; omega)

theorem Span.back {a : Word} (h : S.Span (extent (pre ++ new)) (extent (pre ++ new ++ new')) a) :
    S.Span (extent pre) (extent (pre ++ (new ++ new'))) a :=
  h.mono (by simp) (by simp)

/-- Nothing that comes before the instruction makes a difference to the hazard, and what leads
around it leads to the end of the code. -/
theorem Leads.traps {P Q' : Assertion} (h : S.Leads P R L pre new final)
    (h' : S.Traps B hazard' Q pc (pre ++ new) new') (hP : ∀ s, A s → P s s)
    (hB : ∀ s c, A s → S.Loads c → R s c → B c ∧ hazard' c = hazard s ∧ ∀ c', Q c c' → Q' s c')
    (hexit : ∀ l s c, A s → S.Loads c → L l s c → hazard s = none ∧ Q' s c ∧
      final.buffer.labelOffset l = some (extent (pre ++ (new ++ new')))) :
    S.Traps A hazard Q' pc pre (new ++ new') := by
  have hsame : pre ++ new ++ new' = pre ++ (new ++ new') := List.append_assoc ..
  have hle := h'.le
  have hlt := h'.lt
  rw [hsame] at hlt
  refine ⟨by simp only [extent_append] at hle; omega, hlt, fun machine e hat he => ?_,
    fun machine hat hnone => ?_⟩
  · obtain ⟨m₁, hwalks, hend | ⟨l, p, -, hend⟩⟩ :=
      h machine.core machine ⟨hat.loaded, hat.rip, hP _ hat.core⟩
    · obtain ⟨hb, hhazard, -⟩ := hB _ _ hat.core (Machine.loaded_core.mpr hend.loaded) hend.core
      exact .walks (hwalks.mono fun _ => Span.front)
        ((h'.stops m₁ e ⟨hend.loaded, hend.rip, hb⟩ (hhazard.trans he)).mono fun _ => Span.back)
    · have := (hexit l _ _ hat.core (Machine.loaded_core.mpr hend.loaded) hend.core).1
      rw [this] at he
      cases he
  · obtain ⟨m₁, hwalks, hend | ⟨l, p, hl, hend⟩⟩ :=
      h machine.core machine ⟨hat.loaded, hat.rip, hP _ hat.core⟩
    · obtain ⟨hb, hhazard, hQ⟩ := hB _ _ hat.core (Machine.loaded_core.mpr hend.loaded) hend.core
      obtain ⟨m₂, hwalks', hrip, hQ'⟩ :=
        h'.passes m₁ ⟨hend.loaded, hend.rip, hb⟩ (hhazard.trans hnone)
      exact ⟨m₂, (hwalks.mono fun _ => Span.front).trans (hwalks'.mono fun _ => Span.back),
        by rw [hrip, hsame], hQ _ hQ'⟩
    · obtain ⟨-, hQ, hl'⟩ := hexit l _ _ hat.core (Machine.loaded_core.mpr hend.loaded) hend.core
      cases hl.symm.trans hl'
      exact ⟨m₁, hwalks.mono fun _ => Span.front, hend.rip, hQ⟩

/-- Behind the instruction the code leads to its end. -/
theorem Traps.append (h : S.Traps A hazard Q pc pre new) (h' : S.Passes B R (pre ++ new) new')
    (hB : ∀ s c, S.Loads s → A s → Q s c → S.Loads c ∧ B c) :
    S.Traps A hazard (fun s c => ∃ m, Q s m ∧ R m c) pc pre (new ++ new') := by
  have hsame : pre ++ new ++ new' = pre ++ (new ++ new') := List.append_assoc ..
  have hlt := h.lt
  refine ⟨h.le, by simp only [extent_append] at hlt ⊢; omega, fun machine e hat he =>
    (h.stops machine e hat he).mono fun _ => Span.front, fun machine hat hnone => ?_⟩
  obtain ⟨m₁, hwalks, hrip, hQ⟩ := h.passes machine hat hnone
  obtain ⟨hloads, hb⟩ := hB _ _ (Machine.loaded_core.mpr hat.loaded) hat.core hQ
  obtain ⟨m₂, hwalks', hrip', hR⟩ := h' m₁ ⟨Machine.loaded_core.mp hloads, hrip, hb⟩
  exact ⟨m₂, (hwalks.mono fun _ => Span.front).trans (hwalks'.mono fun _ => Span.back),
    by rw [hrip', hsame], _, hQ, hR⟩

theorem Traps.mono {Q' : Assertion} (h : S.Traps B hazard' Q pc pre new)
    (hA : ∀ s, S.Loads s → A s → B s ∧ hazard' s = hazard s ∧ ∀ c, Q s c → Q' s c) :
    S.Traps A hazard Q' pc pre new := by
  refine ⟨h.le, h.lt, fun machine e hat he => ?_, fun machine hat hnone => ?_⟩
  all_goals obtain ⟨hb, hhazard, hQ⟩ := hA _ (Machine.loaded_core.mpr hat.loaded) hat.core
  · exact h.stops machine e ⟨hat.loaded, hat.rip, hb⟩ (hhazard.trans he)
  · obtain ⟨machine', hwalks, hrip, hpost⟩ :=
      h.passes machine ⟨hat.loaded, hat.rip, hb⟩ (hhazard.trans hnone)
    exact ⟨machine', hwalks, hrip, hQ _ hpost⟩

/-- Where there is no hazard, the code leads to its end. -/
theorem Traps.to_passes (h : S.Traps B hazard Q pc pre new)
    (hA : ∀ s, A s → B s ∧ hazard s = none) :
    S.Passes A Q pre new := by
  intro machine hat
  obtain ⟨hb, hnone⟩ := hA _ hat.core
  exact h.passes machine ⟨hat.loaded, hat.rip, hb⟩ hnone

theorem Leads.passes
    (h : S.Leads (fun s c => c = s ∧ A s) Q noExit pre new final) : S.Passes A Q pre new := by
  intro machine hat
  obtain ⟨machine', hwalks, hend | ⟨l, p, -, hexit⟩⟩ :=
    h machine.core machine ⟨hat.loaded, hat.rip, rfl, hat.core⟩
  · exact ⟨machine', hwalks, hend.rip, hend.core⟩
  · exact hexit.core.elim

/-- An instruction that may fault. -/
theorem traps_instr {i : Instr} {link : Option Link} (hi : i.Encodable)
    (h : ∀ machine, S.Stands (extent pre) A machine →
      ∃ j next, Machine.step machine = Machine.execute j next (machine.fetched j i.encode.length) ∧
      (∀ e, hazard machine.core = some e → Machine.Refuses (Machine.execute j next) machine.core
        e) ∧ (hazard machine.core = none → Executes j next machine.core (Q machine.core))) :
    S.Traps A hazard Q (extent pre) pre [.instr i link] := by
  have hlt : extent pre < extent (pre ++ [.instr i link]) := by simpa using Instr.length_pos hi
  have hinside : ∀ machine, S.Stands (extent pre) A machine →
      S.Span (extent pre) (extent (pre ++ [.instr i link])) machine.rip :=
    fun machine hat => ⟨_, Nat.le_refl _, hlt, hat.rip⟩
  refine ⟨Nat.le_refl _, hlt, fun machine e hat he => ?_, fun machine hat hnone => ?_⟩
  all_goals obtain ⟨j, next, hstep, hrefuses, hexecutes⟩ := h machine hat
  · obtain ⟨m₂, hrun, hcore⟩ := hrefuses e he _ (Machine.core_fetched machine j _)
    refine ⟨machine, m₂, .refl _, hinside machine hat, ?_, hcore⟩
    rw [hstep, hrun, ← hat.rip]
    rfl
  · obtain ⟨_, machine', hrun, hQ, hrip, -⟩ := hexecutes hnone _ (Machine.core_fetched machine j _)
    refine ⟨machine', .step (hinside machine hat) (hstep.trans hrun) (.refl _), ?_, hQ⟩
    rw [hrip]
    change machine.rip + _ = _
    rw [hat.rip, Site.addressOf_add]
    simp

/-- An instruction without a field, wherever its method is installed. -/
theorem Hosts.traps {i : Instr} {post : List Chunk}
    (h : S.Hosts (pre ++ ([.instr i none] ++ post)) final) (hi : i.Encodable)
    (hrefuses : ∀ c next e, A c → hazard c = some e →
      Machine.Refuses (Machine.execute i.decoded next) c e)
    (hexecutes : ∀ c next, A c → hazard c = none → Executes i.decoded next c (Q c)) :
    S.Traps A hazard Q (extent pre) pre [.instr i none] :=
  traps_instr hi fun _ hat =>
    ⟨_, _, h.step_plain hat, fun e => hrefuses _ _ e hat.core, hexecutes _ _ hat.core⟩

end Site

/-! ### Steps that say where an instruction starts -/

/-- The step lays down code, and its result is where one of the instructions starts. -/
def Points (S : Site) (C : Context) (x : Lower Nat) (K : Nat → Site.Claim) : Prop :=
  ∀ pre d pc d', C.Holds d → Sound pre d → x d = .ok pc d' → C.Holds d' ∧ d.Precedes d' ∧
    ∃ new, Sound (pre ++ new) d' ∧ Starts (pre ++ new) pc ∧
    ∀ post final, S.Hosts (pre ++ (new ++ post)) final →
      d'.Precedes final → K pc pre new final

/-- The instruction and its exception edges have been recorded. -/
structure SideTables.HasTrap (t : SideTables) (pc : Nat) (info : DebugInfo) : Prop where
  exception : ⟨pc, info⟩ ∈ t.implicitExceptions
  handlers : ∀ edge ∈ info.edges, ∃ offset,
    ⟨pc, edge.handler, offset, edge.catchType⟩ ∈ t.exceptionHandlers

section Rules

variable {S : Site} {C : Context} {x : Lower Nat} {K : Nat → Site.Claim}

theorem Points.mono {K' : Nat → Site.Claim} (hx : Points S C x K)
    (hK : ∀ pc pre new post final, S.Hosts (pre ++ (new ++ post)) final → K pc pre new final →
      K' pc pre new final) :
    Points S C x K' := by
  intro pre d pc d' hd hs hrun
  obtain ⟨hd', hprecedes, new, hs', hstarts, hnew⟩ := hx pre d pc d' hd hs hrun
  exact ⟨hd', hprecedes, new, hs', hstarts, fun post final hhosts hfinal =>
    hK pc pre new post final hhosts (hnew post final hhosts hfinal)⟩

/-- Where the instruction starts does not matter. -/
theorem Points.lays (hx : Points S C x K) :
    Lays S C (discard x) fun _ pre new final => ∃ pc, K pc pre new final := by
  intro pre d u d' hd hs hrun
  obtain ⟨pc, hrun⟩ := Step.discard_eq_ok.mp hrun
  obtain ⟨hd', hprecedes, new, hs', -, hnew⟩ := hx pre d pc d' hd hs hrun
  exact ⟨hd', hprecedes, new, hs',
    fun post final hhosts hfinal => ⟨pc, hnew post final hhosts hfinal⟩⟩

theorem points_of_fails (hx : Fails x) : Points S C x K := by
  intro pre d pc d' hd hs hrun
  obtain ⟨err, herr, -⟩ := hx d
  cases herr.symm.trans hrun

/-- First something is looked up in the draft. -/
theorem Finds.points {y : Lower α} {p : α → Prop} {f : α → Lower Nat} (hy : Finds C y p)
    (hf : ∀ a, p a → Points S C (f a) K) : Points S C (y >>= f) K := by
  intro pre d pc d' hd hs hrun
  obtain ⟨a, hok, hp⟩ | ⟨err, herr, -⟩ := hy d hd
  · rw [Step.bind_of_ok hok] at hrun
    exact hf a hp pre d pc d' hd hs hrun
  · rw [Step.bind_of_error herr] at hrun
    cases hrun

/-- Other code is laid down in front, with a result of which something is known. -/
theorem Lays.points_of {y : Lower α} {p : α → Prop} {f : α → Lower Nat} {K : α → Site.Claim}
    {L : α → Nat → Site.Claim} (hy : Lays S C y K) (hp : ∀ d a d', y d = .ok a d' → p a)
    (hf : ∀ a, p a → Points S C (f a) (L a)) : Points S C (y >>= f) fun pc pre new final =>
      ∃ a new₁ new₂, new = new₁ ++ new₂ ∧ K a pre new₁ final ∧ L a pc (pre ++ new₁) new₂ final := by
  intro pre d pc d'' hd hs hrun
  obtain ⟨a, d', hrun₁, hrun₂⟩ := Step.bind_eq_ok.mp hrun
  obtain ⟨hd', hprecedes, new₁, hs', hnew₁⟩ := hy pre d a d' hd hs hrun₁
  obtain ⟨hd'', hprecedes', new₂, hs'', hstarts, hnew₂⟩ :=
    hf a (hp d a d' hrun₁) (pre ++ new₁) d' pc d'' hd' hs' hrun₂
  refine ⟨hd'', hprecedes.trans hprecedes', new₁ ++ new₂, by rwa [← List.append_assoc],
    by rwa [← List.append_assoc], fun post final hhosts hfinal => ⟨a, new₁, new₂, rfl, ?_, ?_⟩⟩
  · exact hnew₁ (new₂ ++ post) final (by rwa [← List.append_assoc new₁]) (hprecedes'.trans hfinal)
  · exact hnew₂ post final (by rwa [List.append_assoc pre, ← List.append_assoc new₁]) hfinal

theorem Lays.points {y : Lower α} {f : α → Lower Nat} {K₁ : α → Site.Claim}
    {K₂ : α → Nat → Site.Claim} (hy : Lays S C y K₁) (hf : ∀ a, Points S C (f a) (K₂ a)) :
    Points S C (y >>= f) fun pc pre new final =>
      ∃ a new₁ new₂, new = new₁ ++ new₂ ∧ K₁ a pre new₁ final ∧ K₂ a pc (pre ++ new₁) new₂ final :=
  hy.points_of (p := fun _ => True) (fun _ _ _ _ => trivial) fun a _ => hf a

theorem points_newLabel {f : Label → Lower Nat} (hf : ∀ l, Points S C (f l) K) :
    Points S C (newLabel >>= f) K :=
  (lays_newLabel.points hf).mono fun _ _ _ _ _ _ h => by
    obtain ⟨l, new₁, new₂, rfl, rfl, h⟩ := h
    rwa [List.append_nil] at h

/-- Other code is laid down behind. -/
theorem Points.append {y : Nat → Lower α} {K' : Nat → Site.Claim} (hx : Points S C x K)
    (hy : ∀ pc, Lays S C (y pc) fun _ => K' pc) :
    Points S C (x >>= fun pc => y pc >>= fun _ => pure pc) fun pc pre new final =>
      ∃ new₁ new₂, new = new₁ ++ new₂ ∧ K pc pre new₁ final ∧ K' pc (pre ++ new₁) new₂ final := by
  intro pre d pc d'' hd hs hrun
  obtain ⟨pc', d', hrun₁, hrun₂⟩ := Step.bind_eq_ok.mp hrun
  obtain ⟨a, d₂, hrun₂, ⟨⟩⟩ := Step.bind_eq_ok.mp hrun₂
  obtain ⟨hd', hprecedes, new₁, hs', hstarts, hnew₁⟩ := hx pre d pc d' hd hs hrun₁
  obtain ⟨hd'', hprecedes', new₂, hs'', hnew₂⟩ := hy pc (pre ++ new₁) d' a d'' hd' hs' hrun₂
  refine ⟨hd'', hprecedes.trans hprecedes', new₁ ++ new₂, by rwa [← List.append_assoc], ?_,
    fun post final hhosts hfinal => ⟨new₁, new₂, rfl, ?_, ?_⟩⟩
  · rw [← List.append_assoc]
    exact hstarts.append
  · exact hnew₁ (new₂ ++ post) final (by rwa [← List.append_assoc new₁]) (hprecedes'.trans hfinal)
  · exact hnew₂ post final (by rwa [List.append_assoc pre, ← List.append_assoc new₁]) hfinal

theorem recordTrap_eq_ok {d d' : Draft} {pc : Nat} {info : DebugInfo}
    (h : recordTrap pc info d = .ok () d') :
    ∃ seen, d' = { d with tables := { d.tables with
      implicitExceptions := d.tables.implicitExceptions.push ⟨pc, info⟩
      exceptionHandlers := d.tables.exceptionHandlers ++ handlerRows pc info
      seen := seen } } := by
  obtain ⟨_, d₁, h₁, h₂⟩ := Step.bind_eq_ok.mp h
  obtain ⟨t₁, ht₁, rfl⟩ := record_eq_ok.mp h₁
  obtain ⟨t₂, ht₂, rfl⟩ := record_eq_ok.mp h₂
  cases eq_of_keyed ht₁
  obtain ⟨seen, rfl⟩ := recordHandlers_eq_ok ht₂
  exact ⟨seen, rfl⟩

theorem hasTrap_of_recordTrap {d d' : Draft} {pc : Nat} {info : DebugInfo}
    (h : recordTrap pc info d = .ok () d') :
    d'.tables.HasTrap pc info := by
  obtain ⟨seen, rfl⟩ := recordTrap_eq_ok h
  refine ⟨Array.mem_push_self, fun edge hedge => ⟨none, ?_⟩⟩
  rw [← Array.mem_toList_iff, Array.toList_appendList]
  exact List.mem_append_right _ (List.mem_map_of_mem hedge)

theorem SideTables.HasTrap.within {t t' : SideTables} {pc : Nat} {info : DebugInfo}
    (h : t.HasTrap pc info) (ht : t.Within t') : t'.HasTrap pc info :=
  ⟨ht.implicitExceptions _ h.exception,
    fun edge hedge => (h.handlers edge hedge).imp fun _ => ht.exceptionHandlers _⟩

/-- An instruction that may fault is recorded where it starts. -/
theorem Points.record (hx : Points S C x K) (info : DebugInfo) :
    Lays S C (x >>= fun pc => recordTrap pc info) fun _ pre new final =>
      ∃ pc, K pc pre new final ∧ final.tables.HasTrap pc info := by
  intro pre d u d'' hd hs hrun
  obtain ⟨pc, d', hrun₁, hrun₂⟩ := Step.bind_eq_ok.mp hrun
  obtain ⟨hd', hprecedes, new, hs', hstarts, hnew⟩ := hx pre d pc d' hd hs hrun₁
  have hstep : d'.Precedes d'' := by
    have hwithin := accrues_recordTrap pc info d' () d'' hrun₂
    obtain ⟨seen, rfl⟩ := recordTrap_eq_ok hrun₂
    exact ⟨.refl _, .of_same rfl rfl, hwithin⟩
  exact ⟨(keeps_recordTrap pc info C d' () d'' hd' hrun₂).1, hprecedes.trans hstep, new,
    sound_recordTrap hs' hstarts hrun₂, fun post final hhosts hfinal =>
    ⟨pc, hnew post final hhosts (hstep.trans hfinal),
      (hasTrap_of_recordTrap hrun₂).within hfinal.tables⟩⟩

/-- The same, where there need not be debug information. -/
theorem Points.recorded (hx : Points S C x K) (info : Option DebugInfo) :
    Lays S C (x >>= fun pc => match info with
      | some i => recordTrap pc i
      | none => pure ()) fun _ pre new final =>
      ∃ pc, K pc pre new final ∧ ∀ i, info = some i → final.tables.HasTrap pc i := by
  cases info with
  | some i =>
    refine (hx.record i).mono fun _ pre new post final _ ⟨pc, hnew, hhas⟩ => ⟨pc, hnew, ?_⟩
    rintro _ ⟨⟩
    exact hhas
  | none => exact hx.lays.mono fun _ pre new post final _ ⟨pc, hnew⟩ => ⟨pc, hnew, nofun⟩

/-! ### Instructions -/

section Instructions

variable {A : Machine → Prop} {hazard : Hazard} {Q : Assertion}

/-- An instruction, with its offset taken in front of it. -/
theorem points_emit {i : Instr} (hi : i.Encodable)
    (hrefuses : ∀ c next e, A c → hazard c = some e →
      Machine.Refuses (Machine.execute i.decoded next) c e)
    (hexecutes : ∀ c next, A c → hazard c = none → Executes i.decoded next c (Q c)) :
    Points S C (position >>= fun pc => emit i >>= fun _ => pure pc) fun pc pre new _ =>
      S.Traps A hazard Q pc pre new := by
  intro pre d pc d' hd hs hrun
  obtain ⟨_, d₀, h₀, hrun⟩ := Step.bind_eq_ok.mp hrun
  obtain ⟨rfl, rfl⟩ := position_eq_ok.mp h₀
  obtain ⟨_, d₁, hemit, ⟨⟩⟩ := Step.bind_eq_ok.mp hrun
  obtain ⟨hd', hprecedes, -⟩ := lays_emit (S := S) hi pre d () d' hd hs hemit
  cases emitBytes_eq_ok.mp hemit
  refine ⟨hd', hprecedes, _, hs.instr hi rfl rfl, hs.starts rfl, fun post final hhosts _ => ?_⟩
  rw [hs.position]
  exact hhosts.traps hi hrefuses hexecutes

/-- An instruction that accesses a place in memory. -/
theorem points_emitAt {l : Location} {i : Mem → Instr} {n : Nat} (hl : l.Valid) (hfixed : l.Fixed)
    (hi : ∀ m, (i m).mem? = some m) (hw : ∀ m m', (i m).withMem m' = i m')
    (hrefuses : ∀ c m next, A c → c.effectiveAddress m next = S.place c l → c.faultsAt (S.place c l)
      n = true → Machine.Refuses (Machine.execute (i m).decoded next) c (.segv · (S.place c l)))
    (hexecutes : ∀ c m next, A c → c.effectiveAddress m next = S.place c l →
      c.faultsAt (S.place c l) n = false → Executes (i m).decoded next c (Q c)) :
    Points S C (emitAt l i) fun pc pre new _ =>
      S.Traps A (fun c => c.segv? (S.place c l) n) Q pc pre new := by
  intro pre d pc d' hd hs hrun
  obtain ⟨hs', rfl⟩ := sound_emitAt hl hi hs hrun
  refine ⟨(keeps_emitAt l i C d _ d' hd hrun).1, precedes_emitAt hl hi hs hd.mark hrun, _, hs',
    ⟨_, mem_placed pre _ [], rfl⟩, fun post final hhosts _ => ?_⟩
  refine Site.traps_instr (Instr.encodable_of_some (hi l.mem) hl.encodable) fun machine hat => ?_
  obtain ⟨m, next, haddress, rfl, hstep⟩ := hhosts.step_access hw hfixed hat
  refine ⟨_, _, hstep, fun e he => ?_, fun hnone => ?_⟩
  · obtain ⟨hfaults, rfl⟩ := Machine.segv?_eq_some.mp he
    exact hrefuses _ m _ hat.core (haddress _) hfaults
  · exact hexecutes _ m _ hat.core (haddress _) (Machine.segv?_eq_none.mp hnone)

end Instructions

end Rules

/-! ### Installed code -/

namespace Installation

variable {I : Installation} {A : Machine → Prop} {hazard : Hazard}
  {Q : Assertion} {machine : Machine}

/-- An installed instruction faults where there is reason to, and elsewhere the code runs to its
end. -/
theorem run_of_traps {pre new post : List Chunk} {final : Draft} {pc : Nat}
    (hhosts : I.site.Hosts (pre ++ (new ++ post)) final) (h : I.site.Traps A hazard Q pc pre new)
    (hloaded : machine.Loaded I.base I.image)
    (hrip : machine.rip = I.base + BitVec.ofNat 64 (extent pre)) (hA : A machine.core) :
    (∀ e, hazard machine.core = some e →
      machine.Stops (I.site.Span (extent pre) (extent (pre ++ new)))
        (e (I.base + BitVec.ofNat 64 pc))) ∧
    (hazard machine.core = none →
      ∃ machine', machine.RunsTo (I.base + BitVec.ofNat 64 (extent (pre ++ new))) machine' ∧
      Q machine.core machine'.core) := by
  refine ⟨fun e he => h.stops machine e ⟨hloaded, hrip, hA⟩ he, fun hnone => ?_⟩
  obtain ⟨machine', hwalks, hend, hQ⟩ := h.passes machine ⟨hloaded, hrip, hA⟩ hnone
  exact ⟨machine', runsTo_of_walks hhosts hwalks hend, hQ⟩

theorem HasCode.exists_trap_or_run {op : Operation} {start stop : Nat} (h : I.HasCode op start stop)
    (hlower : ∀ C, C.frame = I.source.frame → C.target = I.target →
      Lays I.site C (lower op) fun _ pre new _ => ∃ pc, I.site.Traps A hazard Q pc pre new) :
    ∃ pc, start ≤ pc ∧ pc < stop ∧ ∀ machine : Machine, machine.Loaded I.base I.image →
      machine.rip = I.base + BitVec.ofNat 64 start → A machine.core →
      (∀ e, hazard machine.core = some e →
        machine.Stops (I.site.Span start stop) (e (I.base + BitVec.ofNat 64 pc))) ∧
      (hazard machine.core = none →
        ∃ machine', machine.RunsTo (I.base + BitVec.ofNat 64 stop) machine' ∧
        Q machine.core machine'.core) := by
  obtain ⟨pre, new, post, final, hhosts, -, ⟨pc, htraps⟩, rfl, rfl⟩ :=
    h.hosts (K := fun pre new _ => ∃ pc, I.site.Traps A hazard Q pc pre new) hlower
  exact ⟨pc, htraps.le, htraps.lt,
    fun machine hloaded hrip hA => run_of_traps hhosts htraps hloaded hrip hA⟩

end Installation

/-- One instruction of the step may fault, and it is recorded with its exception edges. -/
def Lower.Traps (S : Site) (C : Context) (x : Lower Unit) (A : Machine → Prop) (hazard : Hazard)
    (info : DebugInfo) : Prop :=
  Lays S C x fun _ pre new final =>
    ∃ pc, S.Traps A hazard (fun _ _ => True) pc pre new ∧ final.tables.HasTrap pc info

end MachineCode
