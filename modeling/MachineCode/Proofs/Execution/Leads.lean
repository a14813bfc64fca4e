import MachineCode.Proofs.Execution.Computing
import MachineCode.Proofs.Execution.Laying

/-! Code that is laid down leads the machine somewhere. `Runs S C x P Q L` says this of the code of
the step `x` at the site `S`: from a core as `P` says it leads to its end, with a core as `Q` says,
or to a label, with a core as `L` says. The rules put such facts together as the steps are put
together. -/
namespace MachineCode

open X64 Lower Chunk

variable {α β : Type}

/-- What is said of the core of the machine beside another core, to which it is compared. -/
abbrev Machine.Assertion := Machine → Machine → Prop

open Machine (Assertion Executes)

namespace Site

variable (S : Site)

/-- The code leads to its end or to a label. -/
def Leads (P Q : Assertion) (L : Label → Assertion) : Claim := fun pre new final =>
  ∀ s machine, S.Stands (extent pre) (P s) machine → ∃ machine',
    machine.Walks (S.Span (extent pre) (extent (pre ++ new))) machine' ∧
      (S.Stands (extent (pre ++ new)) (Q s) machine' ∨
        ∃ l p, final.buffer.labelOffset l = some p ∧ S.Stands p (L l s) machine')

/-- The image of the method lies in memory. -/
abbrev Loads (machine : Machine) : Prop := machine.Loaded S.base S.image

variable {S} {P P' Q Q' R : Assertion} {L L' : Label → Assertion}
  {pre new new' : List Chunk} {final : Draft}

theorem Span.grow {start stop start' stop' : Nat} (hstart : start' ≤ start) (hstop : stop ≤ stop')
    {machine machine' : Machine} (h : machine.Walks (S.Span start stop) machine') :
    machine.Walks (S.Span start' stop') machine' :=
  h.mono fun _ => Span.mono hstart hstop

theorem leads_nil (h : ∀ s c, S.Loads c → P s c → Q s c) : S.Leads P Q L pre [] final := by
  intro s machine hat
  rw [List.append_nil]
  exact ⟨machine, .refl _,
    .inl ⟨hat.loaded, hat.rip, h s _ (Machine.loaded_core.mpr hat.loaded) hat.core⟩⟩

theorem Leads.append (h : S.Leads P Q L pre new final)
    (h' : S.Leads Q R L (pre ++ new) new' final) :
    S.Leads P R L pre (new ++ new') final := by
  intro s machine hat
  obtain ⟨m₁, hwalks, hend | ⟨l, p, hl, hexit⟩⟩ := h s machine hat
  · obtain ⟨m₂, hwalks', hend'⟩ := h' s m₁ hend
    rw [← List.append_assoc]
    refine ⟨m₂, (Span.grow (Nat.le_refl _) ?_ hwalks).trans
      (Span.grow ?_ (Nat.le_refl _) hwalks'), hend'⟩ <;>
      simp
  · exact ⟨m₁, Span.grow (Nat.le_refl _) (by simp) hwalks, .inr ⟨l, p, hl, hexit⟩⟩

/-- The core to which others are compared may be another one. -/
theorem Leads.adapt (h : S.Leads P' Q' L' pre new final)
    (hP : ∀ s c, S.Loads c → P s c →
      ∃ s', P' s' c ∧ (∀ c', Q' s' c' → Q s c') ∧ ∀ l c', L' l s' c' → L l s c') :
    S.Leads P Q L pre new final := by
  intro s machine hat
  obtain ⟨s', hP', hQ, hL⟩ := hP s _ (Machine.loaded_core.mpr hat.loaded) hat.core
  obtain ⟨machine', hwalks, hend | ⟨l, p, hl, hexit⟩⟩ := h s' machine ⟨hat.loaded, hat.rip, hP'⟩
  · exact ⟨machine', hwalks, .inl (hend.mono hQ)⟩
  · exact ⟨machine', hwalks, .inr ⟨l, p, hl, hexit.mono (hL l)⟩⟩

/-- The label is where the code ends. -/
theorem Leads.join {l : Label} (h : S.Leads P Q L' pre new final)
    (hl : final.buffer.labelOffset l = some (extent (pre ++ new))) (hQ : ∀ s c, Q s c → R s c)
    (hL : ∀ l' s c, L' l' s c → L l' s c ∨ l' = l ∧ R s c) : S.Leads P R L pre new final := by
  intro s machine hat
  obtain ⟨machine', hwalks, hend | ⟨l', p, hl', hexit⟩⟩ := h s machine hat
  · exact ⟨machine', hwalks, .inl (hend.mono (hQ s))⟩
  · refine ⟨machine', hwalks, ?_⟩
    obtain hother | ⟨rfl, hR⟩ := hL l' s _ hexit.core
    · exact .inr ⟨l', p, hl', hexit.loaded, hexit.rip, hother⟩
    · cases hl.symm.trans hl'
      exact .inl ⟨hexit.loaded, hexit.rip, hR⟩

theorem leads_nop {n : Nat} (hn : 0 < n ∧ n ≤ 8) (hhosts : S.Hosts (pre ++ .nop n :: post) final) :
    S.Leads P P L pre [.nop n] final := by
  intro s machine hat
  obtain ⟨m, j, -, hreads, hstep⟩ := hhosts.step rfl rfl hat
  cases hreads
  have hsize : (Chunk.nop n).size = n := Chunk.size_nop hn.2
  refine ⟨_, .step ⟨extent pre, Nat.le_refl _, ?_, hat.rip⟩ hstep (.refl _),
    .inl ⟨hat.loaded, ?_, hat.core⟩⟩
  · simpa [hsize] using hn.1
  · change machine.rip + _ = _
    rw [hat.rip, addressOf_add]
    simp

/-- Padding changes nothing. -/
theorem leads_padding {ns : List Nat} (hns : ∀ n ∈ ns, 0 < n ∧ n ≤ 8)
    (hhosts : S.Hosts (pre ++ (ns.map .nop ++ post)) final) :
    S.Leads P P L pre (ns.map .nop) final := by
  induction ns generalizing pre with
  | nil => exact leads_nil fun _ _ _ => id
  | cons n ns ih =>
    obtain ⟨hn, hns⟩ := List.forall_mem_cons.mp hns
    have hfirst : S.Leads P P L pre [.nop n] final := leads_nop hn hhosts
    refine hfirst.append (ih hns ?_)
    rwa [List.append_assoc, List.singleton_append]

/-- Code that control does not get to. -/
theorem leads_unreached (pre new : List Chunk) (final : Draft) :
    S.Leads (fun _ _ => False) Q L pre new final :=
  fun _ _ hat => hat.core.elim

end Site

/-- The code of the step leads to its end or to a label. -/
def Runs (S : Site) (C : Context) (x : Lower α) (P : Assertion) (Q : α → Assertion)
    (L : Label → Assertion) : Prop := Lays S C x fun a => S.Leads P (Q a) L

/-- The code leads to no label. -/
def noExit : Label → Assertion := fun _ _ _ => False

/-- From each core as `A` says the code leads to its end, with a core as `Q` says beside the
first. -/
def Computes (S : Site) (C : Context) (x : Lower α) (A : Machine → Prop)
    (Q : α → Assertion) : Prop :=
  Runs S C x (fun s c => c = s ∧ A s) Q noExit

section Rules

variable {S : Site} {C : Context} {x : Lower α} {f : α → Lower β} {P P' : Assertion}
  {Q Q' : α → Assertion}
  {R : β → Assertion} {L L' : Label → Assertion}

theorem Runs.bind (hx : Runs S C x P Q L)
    (hf : ∀ a, Runs S C (f a) (Q a) R L) : Runs S C (x >>= f) P R L :=
  (Lays.bind hx hf).mono fun b pre new post final _ h => by
    obtain ⟨a, new₁, new₂, rfl, h₁, h₂⟩ := h
    exact h₁.append h₂

/-- The same, with what is said of all the code behind the second step. -/
theorem Runs.before {T : β → List Chunk → Draft → Prop} (hx : Runs S C x P Q L)
    (hf : ∀ a, Lays S C (f a) fun b pre new final => S.Leads (Q a) (R b) L pre new final ∧
      T b (pre ++ new) final) :
    Lays S C (x >>= f) fun b pre new final =>
      S.Leads P (R b) L pre new final ∧ T b (pre ++ new) final :=
  (Lays.bind hx hf).mono fun b pre new post final _ h => by
    obtain ⟨a, new₁, new₂, rfl, hfirst, hrest, hT⟩ := h
    exact ⟨hfirst.append hrest, by rwa [← List.append_assoc]⟩

theorem Runs.adapt (h : Runs S C x P' Q' L') (hP : ∀ s c, S.Loads c → P s c → ∃ s', P' s' c ∧
    (∀ a c', Q' a s' c' → Q a s c') ∧ ∀ l c', L' l s' c' → L l s c') : Runs S C x P Q L :=
  Lays.mono h fun a pre new post final _ h => h.adapt fun s c hloads hc => by
    obtain ⟨s', hP', hQ, hL⟩ := hP s c hloads hc
    exact ⟨s', hP', hQ a, hL⟩

theorem Runs.mono (h : Runs S C x P Q' L') (hQ : ∀ a s c, Q' a s c → Q a s c)
    (hL : ∀ l s c, L' l s c → L l s c) : Runs S C x P Q L :=
  h.adapt fun s _ _ hP => ⟨s, hP, fun a c => hQ a s c, fun l c => hL l s c⟩

/-- What is shown of all cores in front of the code holds of those that it starts from. -/
theorem Computes.runs {A : Machine → Prop} (h : Computes S C x A Q')
    (hP : ∀ s c, S.Loads c → P s c → A c ∧ ∀ a c', Q' a c c' → Q a s c') : Runs S C x P Q L :=
  Runs.adapt h fun s c hloads hc =>
    ⟨c, ⟨rfl, (hP s c hloads hc).1⟩, (hP s c hloads hc).2, fun _ _ => False.elim⟩

theorem Computes.mono {A A' : Machine → Prop} (h : Computes S C x A Q')
    (hA : ∀ s, S.Loads s → A' s → A s ∧ ∀ a c, Q' a s c → Q a s c) : Computes S C x A' Q :=
  h.runs fun _ _ hloads hc => by
    obtain ⟨rfl, hc⟩ := hc
    exact hA _ hloads hc

/-- One step after the other, each from where the one before has ended. -/
theorem Computes.bind {A : Machine → Prop} {B : α → Machine → Prop} {R' : α → β → Assertion}
    (hx : Computes S C x A Q) (hf : ∀ a, Computes S C (f a) (B a) (R' a))
    (hR : ∀ s a c, A s → Q a s c → B a c ∧ ∀ b c', R' a b c c' → R b s c') :
    Computes S C (x >>= f) A R := by
  refine Runs.bind (Q := fun a s c => A s ∧ Q a s c) (Runs.adapt hx fun s c _ hc => ?_) fun a =>
    (hf a).runs fun s c _ hc => hR s a c hc.1 hc.2
  exact ⟨s, hc, fun a c' hQ => ⟨hc.2, hQ⟩, fun _ _ => False.elim⟩

/-- The same for a step with a result that is known. -/
theorem Runs.discard {Q : Unit → Assertion} (h : Runs S C x P (fun _ => Q ()) L) :
    Runs S C (discard x) P Q L :=
  (Lays.discard h).mono fun _ _ _ _ _ _ ⟨_, h⟩ => h

theorem runs_of_fails (hx : Fails x) : Runs S C x P Q L := lays_of_fails hx

theorem runs_pure (a : α) (h : ∀ s c, S.Loads c → P s c → Q a s c) : Runs S C (pure a) P Q L :=
  (finds_pure (p := (· = a)) rfl).lays.mono fun b pre new post final _ hnew => by
    obtain ⟨rfl, rfl⟩ := hnew
    exact Site.leads_nil h

theorem computes_of_fails {A : Machine → Prop} (hx : Fails x) : Computes S C x A Q :=
  runs_of_fails hx

theorem Computes.discard {A : Machine → Prop} {Q : Unit → Assertion}
    (h : Computes S C x A fun _ => Q ()) :
    Computes S C (discard x) A Q := Runs.discard h

theorem computes_pure (a : α) {A : Machine → Prop} :
    Computes S C (pure a) A fun b s c => b = a ∧ c = s ∧ A s :=
  runs_pure a fun _ _ _ hc => by
    obtain ⟨rfl, hA⟩ := hc
    exact ⟨rfl, rfl, hA⟩

/-- First something is looked up in the draft. -/
theorem Finds.runs {p : α → Prop} (hx : Finds C x p) (hf : ∀ a, p a → Runs S C (f a) P R L) :
    Runs S C (x >>= f) P R L := hx.lays_bind hf

theorem Finds.computes {p : α → Prop} {A : Machine → Prop} (hx : Finds C x p)
    (hf : ∀ a, p a → Computes S C (f a) A R) : Computes S C (x >>= f) A R := hx.runs hf

/-- A label is bound behind the code, so that the code may lead there. -/
theorem Runs.join {l : Label} {R : Unit → Assertion} (hx : Runs S C x P Q L')
    (hQ : ∀ a s c, Q a s c → R () s c) (hL : ∀ l' s c, L' l' s c → L l' s c ∨ l' = l ∧ R () s c) :
    Runs S C (x >>= fun _ => Lower.bind l) P R L :=
  (Lays.bind hx fun _ => lays_bind l).mono fun _ pre new post final _ h => by
    obtain ⟨a, new₁, new₂, rfl, h₁, rfl, hl⟩ := h
    rw [List.append_nil]
    exact h₁.join hl (hQ a) hL

end Rules

/-! ### Labels and branches -/

section Branches

variable {S : Site} {C : Context} {P : Assertion} {f : Label → Lower β} {R : β → Assertion}
  {L : Label → Assertion}

theorem runs_newLabel (hf : ∀ l, Runs S C (f l) P R L) : Runs S C (newLabel >>= f) P R L :=
  (Lays.bind lays_newLabel hf).mono fun _ pre new post final _ h => by
    obtain ⟨l, new₁, new₂, rfl, rfl, h⟩ := h
    rwa [List.append_nil] at h

/-- A branch goes to its label if its condition holds. -/
theorem leads_branch {short : Bool} {cond : Option Cond} {l : Label} {pre post : List Chunk}
    {final : Draft} (hhosts : S.Hosts (pre ++ ([.branch short cond l] ++ post)) final) :
    S.Leads P (fun s c => P s c ∧ cond.all c.flags.cond = false)
      (fun l' s c => l' = l ∧ P s c ∧ cond.all c.flags.cond = true) pre
        [.branch short cond l] final := by
  intro s machine hat
  obtain ⟨target, machine', htarget, hstep, hcore, hrip⟩ := hhosts.step_branch hat
  have hinside : S.Span (extent pre) (extent (pre ++ [.branch short cond l])) machine.rip := by
    refine ⟨extent pre, Nat.le_refl _, ?_, hat.rip⟩
    have : 0 < (Chunk.branch short cond l).size := by
      cases short <;> cases cond <;>
        simp [Chunk.size, pieces, Piece.length, ReferenceKind.width, longOpcode]
    simpa using this
  refine ⟨machine', .step hinside hstep (.refl _), ?_⟩
  cases htaken : cond.all machine.flags.cond with
  | true =>
    rw [htaken, if_pos rfl] at hrip
    have hthere : S.Stands target (fun c => P s c ∧ cond.all c.flags.cond = true) machine' :=
      Site.Stands.moved ⟨hat.loaded, hat.rip, hat.core, htaken⟩ hcore hrip
    exact .inr ⟨l, target, htarget, hthere.mono fun _ hc => ⟨rfl, hc⟩⟩
  | false =>
    rw [htaken, if_neg (by simp)] at hrip
    exact .inl (Site.Stands.moved ⟨hat.loaded, hat.rip, hat.core, htaken⟩ hcore
      (by simpa using hrip))

theorem runs_jcc (cond : Cond) (l : Label) : Runs S C (jcc cond l) P
    (fun _ s c => P s c ∧ c.flags.cond cond = false) fun l' s c =>
      l' = l ∧ P s c ∧ c.flags.cond cond = true :=
  (lays_jcc cond l).mono fun _ pre new post final hhosts h => by
    obtain ⟨short, rfl⟩ := h
    exact leads_branch hhosts

/-- Nothing is executed behind a branch without a condition. -/
theorem runs_jmp {Q : Unit → Assertion} (l : Label) :
    Runs S C (jmp l) P Q fun l' s c => l' = l ∧ P s c :=
  (lays_jmp l).mono fun _ pre new post final hhosts h => by
    obtain ⟨short, rfl⟩ := h
    exact (leads_branch hhosts).adapt fun s _ _ hP =>
      ⟨s, hP, fun _ hQ => absurd hQ.2 (by simp), fun _ _ hl => ⟨hl.1, hl.2.1⟩⟩

theorem runs_jccShort (cond : Cond) (l : Label) : Runs S C (jccShort cond l) P
    (fun _ s c => P s c ∧ c.flags.cond cond = false) fun l' s c =>
      l' = l ∧ P s c ∧ c.flags.cond cond = true :=
  (lays_jccShort cond l).mono fun _ pre new post final hhosts h => by
    obtain rfl := h
    exact leads_branch hhosts

/-- The label of the code is where it starts. -/
theorem Runs.entered {x : Lower α} {Q : α → Assertion} {l : Label} (hx : Runs S C x P Q L) :
    Lays S C (Lower.bind l >>= fun _ => x) fun a pre new final =>
      final.buffer.labelOffset l = some (extent pre) ∧ S.Leads P (Q a) L pre new final :=
  (Lays.bind (lays_bind l) fun _ => hx).mono fun a pre new post final _ h => by
    obtain ⟨_, new₁, new₂, rfl, ⟨rfl, hl⟩, h⟩ := h
    rw [List.append_nil] at h
    exact ⟨hl, h⟩

/-- The label behind the code is where it ends. -/
theorem Runs.left {x : Lower α} {Q : Assertion} {l : Label} (hx : Runs S C x P (fun _ => Q) L) :
    Lays S C (x >>= fun _ => Lower.bind l) fun _ pre new final =>
      final.buffer.labelOffset l = some (extent (pre ++ new)) ∧ S.Leads P Q L pre new final :=
  (Lays.bind hx fun _ => lays_bind l).mono fun _ pre new post final _ h => by
    obtain ⟨a, new₁, new₂, rfl, h, rfl, hl⟩ := h
    rw [List.append_nil]
    exact ⟨hl, h⟩

end Branches

/-! ### Instructions -/

section Instructions

variable {S : Site} {C : Context} {P Q : Assertion} {L : Label → Assertion}
  {pre post : List Chunk} {final : Draft}

/-- The instruction is executed, and control goes on behind it. -/
theorem Site.Stands.executes {A B : Machine → Prop} {machine : Machine} {i : Instr}
    {link : Option Link} {j : Decoded} {next : Word} (hat : S.Stands (extent pre) A machine)
    (hstep : Machine.step machine = Machine.execute j next (machine.fetched j i.encode.length))
    (h : Executes j next machine.core fun c => S.Loads c ∧ B c) :
    ∃ machine', Machine.step machine = .ok () machine' ∧
    S.Stands (extent (pre ++ [.instr i link])) B machine' := by
  obtain ⟨_, machine', hrun, ⟨hloads, hB⟩, hrip, -⟩ := h _ (Machine.core_fetched machine j _)
  refine ⟨machine', hstep.trans hrun, hloads, ?_, hB⟩
  rw [hrip]
  change machine.rip + _ = _
  rw [hat.rip, Site.addressOf_add]
  simp

/-- An instruction that is executed leads to its end. -/
theorem leads_instr {i : Instr} {link : Option Link} (hi : i.Encodable) (h : ∀ s machine,
    S.Stands (extent pre) (P s) machine → ∃ j next, Machine.step machine =
      Machine.execute j next (machine.fetched j i.encode.length) ∧
      Executes j next machine.core fun c => S.Loads c ∧ Q s c) :
    S.Leads P Q L pre [.instr i link] final := by
  intro s machine hat
  obtain ⟨j, next, hstep, hexecutes⟩ := h s machine hat
  obtain ⟨machine', hrun, hend⟩ := hat.executes hstep hexecutes
  have hinside : S.Span (extent pre) (extent (pre ++ [.instr i link])) machine.rip :=
    ⟨extent pre, Nat.le_refl _, by simpa using Instr.length_pos hi, hat.rip⟩
  exact ⟨machine', .step hinside hrun (.refl _), .inl hend⟩

/-- An instruction that is laid down as it is. -/
theorem leads_plain {i : Instr} (hi : i.Encodable)
    (hhosts : S.Hosts (pre ++ .instr i none :: post) final)
    (h : ∀ s c next, S.Loads c → P s c → Executes i.decoded next c fun c' => S.Loads c' ∧ Q s c') :
    S.Leads P Q L pre [.instr i none] final :=
  leads_instr hi fun s _ hat => ⟨_, _, hhosts.step_plain hat, h s _ _ hat.loaded hat.core⟩

theorem runs_emit {i : Instr} {Q : Unit → Assertion} (hi : i.Encodable)
    (h : ∀ s c next, S.Loads c → P s c →
      Executes i.decoded next c fun c' => S.Loads c' ∧ Q () s c') :
    Runs S C (emit i) P Q L :=
  (lays_emit hi).mono fun _ pre new post final hhosts hnew => by
    subst hnew
    exact leads_plain hi hhosts h

/-- An instruction with a memory operand. Its operand denotes the place. -/
theorem runs_emitAt {l : Location} {i : Mem → Instr} {Q : Nat → Assertion} (hl : l.Valid)
    (hfixed : l.Fixed) (hi : ∀ m, (i m).mem? = some m) (hw : ∀ m m', (i m).withMem m' = i m')
    (h : ∀ s c m next pc, S.Loads c → P s c → c.effectiveAddress m next = S.place c l →
      Executes (i m).decoded next c fun c' => S.Loads c' ∧ Q pc s c') :
    Runs S C (emitAt l i) P Q L :=
  (lays_emitAt hl hi).mono fun pc pre new post final hhosts hnew => by
    obtain ⟨rfl, -⟩ := hnew
    refine leads_instr (Instr.encodable_of_some (hi l.mem) hl.encodable) fun s machine hat => ?_
    obtain ⟨m, next, haddress, rfl, hstep⟩ := hhosts.step_access hw hfixed hat
    exact ⟨_, _, hstep, h s _ m _ pc hat.loaded hat.core (haddress _)⟩

/-- An instruction that does not store leaves the image where it is. -/
theorem Machine.Yields.loads {x : MachineStep α} {c : Machine} {R : α → Machine → Prop}
    (h : Machine.Yields x c R) (hloads : S.Loads c) (hR : ∀ a c', R a c' → c'.memory = c.memory) :
    Machine.Yields x c fun a c' => S.Loads c' ∧ R a c' :=
  h.mono fun a c' hc => ⟨hloads.congr fun b => by rw [hR a c' hc], hc⟩

theorem computes_emit {i : Instr} {A : Machine → Prop} {R : Assertion} (hi : i.Encodable)
    (h : ∀ c next, A c → Executes i.decoded next c (R c))
    (hR : ∀ s c, R s c → c.memory = s.memory) :
    Computes S C (emit i) A fun _ => R :=
  runs_emit hi fun _ _ next hloads hc => by
    obtain ⟨rfl, hc⟩ := hc
    exact (h _ next hc).loads hloads fun _ _ => hR _ _

theorem computes_emitAt {l : Location} {i : Mem → Instr} {A : Machine → Prop} {R : Assertion}
    (hl : l.Valid) (hfixed : l.Fixed) (hi : ∀ m, (i m).mem? = some m)
    (hw : ∀ m m', (i m).withMem m' = i m')
    (h : ∀ c m next, A c → c.effectiveAddress m next = S.place c l →
      Executes (i m).decoded next c (R c))
    (hR : ∀ s c, R s c → c.memory = s.memory) : Computes S C (emitAt l i) A fun _ => R :=
  runs_emitAt hl hfixed hi hw fun _ _ m next _ hloads hc haddress => by
    obtain ⟨rfl, hc⟩ := hc
    exact (h _ m next hc haddress).loads hloads fun _ _ => hR _ _

/-- The same for an instruction that stores. -/
theorem computes_store {l : Location} {i : Mem → Instr} {A : Machine → Prop} {R : Assertion}
    (hl : l.Valid) (hfixed : l.Fixed) (hi : ∀ m, (i m).mem? = some m)
    (hw : ∀ m m', (i m).withMem m' = i m')
    (h : ∀ c m next, A c → c.effectiveAddress m next = S.place c l →
      Executes (i m).decoded next c (R c))
    (hR : ∀ s c, A s → R s c → S.Loads s → S.Loads c) : Computes S C (emitAt l i) A fun _ => R :=
  runs_emitAt hl hfixed hi hw fun _ _ m next _ hloads hc haddress => by
    obtain ⟨rfl, hc⟩ := hc
    exact (h _ m next hc haddress).mono fun _ _ hc' => ⟨hR _ _ hc hc' hloads, hc'⟩

/-- The address of an object becomes an immediate. -/
theorem runs_embed {o : ObjectId} {dst : Gpr} {Q : Unit → Assertion}
    (h : ∀ s c a next, S.Loads c → P s c → S.resolver.object o = some a →
      Executes (Instr.movAbs dst ⟨a⟩).decoded next c fun c' => S.Loads c' ∧ Q () s c') :
    Runs S C (emitLinked (.movAbs dst unresolvedObject) fun field =>
      SideTables.recordObject field o) P Q L :=
  (lays_embed o dst).mono fun _ pre new post final hhosts hnew => by
    subst hnew
    refine leads_instr (Instr.encodable_of_none rfl) fun s machine hat => ?_
    obtain ⟨a, ha, hstep⟩ := hhosts.step_object hat
    exact ⟨_, _, hstep, h s _ a _ hat.loaded hat.core ha⟩

/-- The bytes stand in the data section at this offset. -/
def Site.HasData (S : Site) (offset : Nat) (bytes : List UInt8) : Prop :=
  BytesAt S.image (S.dataStart + offset) bytes

theorem runs_slot {o : ObjectId} {f : Nat → Lower β} {R : β → Assertion}
    (hf : ∀ offset, Runs S C (f offset) (fun s c => P s c ∧ ∃ a, S.resolver.object o = some a ∧
      S.HasData offset (leBytes 8 a.toNat)) R L) :
    Runs S C (do
      let (offset, isNew) ← onData (·.objectSlot o)
      if isNew then record (SideTables.recordDataObject offset o)
      f offset) P R L :=
  (lays_slot hf).mono fun b pre new post final hhosts h => by
    obtain ⟨offset, hslot, h⟩ := h
    exact h.adapt fun s c _ hc => ⟨s, ⟨hc, hhosts.slot hslot⟩, fun _ => id, fun _ _ => id⟩

theorem runs_constant {bytes : List UInt8} {align : Nat} {f : Nat → Lower β} {R : β → Assertion}
    (hf : ∀ offset, Runs S C (f offset) (fun s c => P s c ∧ S.HasData offset bytes) R L) :
    Runs S C (onData (·.constant bytes align) >>= f) P R L :=
  ((lays_constant bytes align).bind hf).mono fun b pre new post final hhosts h => by
    obtain ⟨offset, new₁, new₂, rfl, ⟨rfl, hconstant⟩, h⟩ := h
    rw [List.append_nil] at h
    exact h.adapt fun s c _ hc => ⟨s, ⟨hc, hhosts.constant hconstant⟩, fun _ => id, fun _ _ => id⟩

end Instructions

end MachineCode
