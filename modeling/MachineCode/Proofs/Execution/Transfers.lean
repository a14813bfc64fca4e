import MachineCode.Proofs.Effects.Control
import MachineCode.Proofs.Execution.Installations
import MachineCode.Proofs.Execution.Moving
import MachineCode.Proofs.Labels.SlowPaths

/-! Moves in methods that have been compiled and installed: operations of their own, and those that
the lowering of other operations makes on its way, which may have to keep the flags. -/
namespace MachineCode

open X64 Lower Machine Chunk

theorem receives_uncounting {C : Context} {src dst : Operand} : Receives C .uncounting src dst :=
  ⟨open_uncounting.sets dst, fun _ _ _ => trivial⟩

/-- A move continues a draft. -/
theorem onward_mov {src dst : Operand} {keepFlags : Bool} {d d' : Draft}
    (hmark : d.buffer.mark = none) (hrun : mov src dst keepFlags d = .ok () d') :
    d.Onward d' ∧ d'.buffer.mark = none := by
  have hdoes : Does (Context.of d) .uncounting (mov src dst keepFlags) :=
    does_mov receives_uncounting
  exact ⟨hdoes.onward (Context.holds_of hmark) hrun,
    (hdoes.run (Context.holds_of hmark) hrun).2.1.mark⟩

namespace Installation

/-- The code of a move is between these positions. The lowering of an operation, or of what has been
put off, has made the move on its way. -/
inductive HasMove (I : Installation) (src dst : Operand) (keepFlags : Bool) : Nat → Nat → Prop
  | intro {d e e' before after : Draft} {s : Source} (hstart : I.Starts d)
    (hreach : Reaches I.source.constants I.source.ops d s e) (hlower : s.lower e = .ok () e')
    (hbefore : e.Onward before) (hmark : before.buffer.mark = none)
    (hmov : mov src dst keepFlags before = .ok () after) (hafter : after.Onward e') :
    HasMove I src dst keepFlags before.buffer.position after.buffer.position

variable {I : Installation} {src dst : Operand} {keepFlags : Bool} {start stop : Nat}

/-- What a move lays down stands in the installed method. -/
theorem HasMove.hosts {K : Site.Claim} (h : I.HasMove src dst keepFlags start stop)
    (hlays : ∀ C, C.frame = I.source.frame → Lays I.site C (mov src dst keepFlags) fun _ => K) :
    ∃ pre new post final, I.site.Hosts (pre ++ (new ++ post)) final ∧ K pre new final ∧
      extent pre = start ∧ extent (pre ++ new) = stop := by
  cases h with
  | intro hd hreach hlower hbefore hmark hmov hafter =>
    obtain ⟨honward, he, he'⟩ := hd.completes hreach hlower
    obtain ⟨last, hrest, hcompleted⟩ := he'.final
    have hlast := hafter.trans hrest
    have hcompletes :=
      he.of_onward hbefore hmark ⟨last, (onward_mov hmark hmov).1.trans hlast, hcompleted⟩
    obtain ⟨hframe, -⟩ := I.context_of_onward hd (honward.trans hbefore)
    obtain ⟨pre, new, post, hhosts, hclaim, hstart, hstop⟩ :=
      hosts_of_lays hcompletes hlast hcompleted
      (Context.holds_of hmark) (hlays _ hframe) hmov
    exact ⟨pre, new, post, last, hhosts, hclaim, hstart, hstop⟩

/-- The code of a move leads from its start to its end. -/
theorem HasMove.exists_run {A : Machine → Prop} {Q : Unit → Assertion} {machine : Machine}
    (h : I.HasMove src dst keepFlags start stop)
    (hmov : ∀ C, C.frame = I.source.frame → Computes I.site C (mov src dst keepFlags) A Q)
    (hloaded : machine.Loaded I.base I.image) (hrip : machine.rip = I.base + BitVec.ofNat 64 start)
    (hA : A machine.core) : ∃ machine', machine.RunsTo (I.base + BitVec.ofNat 64 stop) machine' ∧
      Q () machine.core machine'.core := by
  obtain ⟨pre, new, post, final, hhosts, hleads, rfl, rfl⟩ :=
    h.hosts (K := I.site.Leads (fun s c => c = s ∧ A s) (Q ()) noExit) hmov
  exact exists_run_of_leads hhosts hleads hloaded hrip hA

/-- The first move of a conditional one keeps the flags, on which the second depends. -/
theorem HasCode.exists_hasMove {cond : Condition} {unorderedIsTrue : Option Bool}
    {trueValue falseValue : Operand}
    (h : I.HasCode (.condMove cond unorderedIsTrue trueValue falseValue dst) start stop) :
    ∃ start' stop', I.HasMove (selection cond trueValue falseValue dst).first dst
      true start' stop' := by
  obtain ⟨d, e, e', hd, hreach, hlower, -, -⟩ := h
  obtain ⟨d₁, journal, hrun, rfl⟩ := operation_run hlower
  have hmark : e.buffer.mark = none := (hd.completes hreach hlower).2.1.mark
  let named : Draft :=
    { e with current := Operation.name (.condMove cond unorderedIsTrue trueValue falseValue dst) }
  have hnamed : (Context.of named).Holds named := Context.holds_of hmark
  have hrun : condMove cond unorderedIsTrue trueValue falseValue dst named = .ok () d₁ := hrun
  obtain ⟨second, before, hpreloaded, hrun⟩ := Step.bind_eq_ok.mp hrun
  obtain ⟨_, after, hmov, hrest⟩ := Step.bind_eq_ok.mp hrun
  have hload : Does (Context.of named) .uncounting
      (preloaded (selection cond trueValue falseValue dst).second dst) := does_preloaded _ _
  have hbefore : before.buffer.mark = none := (hload.run hnamed hpreloaded).2.1.mark
  have hlast : after.Onward d₁ :=
    Lowers.onward (does_secondMove (fresh_uncounting _) receives_uncounting)
    (Context.holds_of (onward_mov hbefore hmov).2) hrest
  have hrenamed : e.Onward named := .of_same rfl rfl rfl rfl rfl
  have honward : e.Onward before := hrenamed.trans (hload.onward hnamed hpreloaded)
  have hafter : d₁.Onward { d₁ with journal := journal } := .of_same rfl rfl rfl rfl rfl
  exact ⟨_, _, .intro hd hreach hlower honward hbefore hmov (hlast.trans hafter)⟩

end Installation

/-- From any state in which the operands can be accessed, the code of a move between operands of one
kind runs to its end. The destination has received the value that the source has had, at the address
from before, and nothing else has changed but the scratch register, and that only on the way to
memory. The flags stay if they have to. In a general register a 64-bit float would be cut off; its
place is in the other file. -/
theorem exists_run_moved {I : Installation} {src dst : Operand} {keepFlags : Bool}
    {start stop : Nat} {machine : Machine} (hcode : I.HasMove src dst keepFlags start stop)
    (hkind : dst.kind = src.kind) (hexists : dst.Exists)
    (hdouble : ∀ g, gpr? src = some g → src.kind ≠ .double)
    (hscratch : ¬ dst.Uses I.source.frame scratch) (hloaded : machine.Loaded I.base I.image)
    (hrip : machine.rip = I.base + BitVec.ofNat 64 start)
    (hcan : CanMove I.site I.source.frame src dst machine) :
    ∃ machine' v, machine.RunsTo (I.base + BitVec.ofNat 64 stop) machine' ∧
      I.site.value? I.source.frame machine src = some v ∧
      I.site.Delivers I.source.frame dst v machine machine' ∧
      (keepFlags = true → machine'.flags = machine.flags) := by
  have hmov : ∀ C, C.frame = I.source.frame → Computes I.site C (mov src dst keepFlags)
      (CanMove I.site I.source.frame src dst) fun _ =>
        I.site.Moved I.source.frame src dst keepFlags := by
    rintro C hC
    rw [← hC] at hscratch ⊢
    refine computes_mov hkind hexists hdouble fun l hl => Bool.eq_false_iff.mpr fun huses => ?_
    exact hscratch (.inr ⟨l, hl, huses⟩)
  obtain ⟨machine', hrun, v, hv, hdelivers, hflags⟩ := hcode.exists_run hmov hloaded hrip
    ⟨hcan.readable, hcan.source, hcan.target, hcan.clear⟩
  rw [Site.value?_core] at hv
  exact ⟨machine', v, hrun, hv, ⟨⟨hdelivers.holds.gpr, hdelivers.holds.xmm, hdelivers.holds.memory⟩,
    ⟨hdelivers.keeps.gprs, hdelivers.keeps.xmms, hdelivers.keeps.memory,
      hdelivers.keeps.ranges⟩⟩, hflags⟩

/-- In a conditional move a zero is moved without a change of the flags. -/
theorem exists_run_moved_zero :
    let zero : Operand := .const ⟨.int, 0⟩
    let result : Operand := .reg Gpr.rax.register .int
    ∃ (I : Installation) (start stop : Nat) (machine machine' : Machine),
      I.HasMove zero result true start stop ∧
      machine.Loaded I.base I.image ∧ machine.rip = I.base + BitVec.ofNat 64 start ∧
      machine.reg .rax = -1 ∧
      machine.flags.cf = true ∧ machine.RunsTo (I.base + BitVec.ofNat 64 stop) machine' ∧
      low (machine'.reg .rax) .dword = 0 ∧ machine'.flags = machine.flags := by
  intro zero result
  let target : Target := ⟨{ Options.standard with useStackBanging := false }, ⟨true, true⟩, 4096⟩
  let other : Operand := .reg Gpr.rdx.register .int
  let machine : Machine :=
    { Machine.initial.setReg .rax (-1) with flags := ⟨true, false, true, false, true⟩ }
  obtain ⟨I, -, hsource, -, hlow, hhigh⟩ :=
    Installation.exists_installed target
      ⟨"test", none, .empty, [], [.condMove .lt none zero other result, .ret none]⟩
        0x10000000 (by decide +kernel)
  obtain ⟨_, _, hop⟩ :=
    I.exists_hasCode (by simp [hsource] : .condMove .lt none zero other result ∈ I.source.ops)
  obtain ⟨start, stop, hcode⟩ := hop.exists_hasMove
  have hreadable : I.site.Readable (I.enter machine start) :=
    Site.readable_of_unprotected rfl hlow hhigh
  have hscratch : ¬ result.Uses I.source.frame scratch := by rintro (h | ⟨l, h, -⟩) <;> cases h
  obtain ⟨machine', v, hrun, hv, hdelivers, hflags⟩ :=
    exists_run_moved hcode rfl (fun _ => .inl ⟨.rax, rfl⟩)
    nofun hscratch (Installation.loaded_enter machine start) rfl (canMove_reg hreadable nofun)
  cases hv
  exact ⟨I, start, stop, _, machine', hcode, Installation.loaded_enter _ _, rfl, rfl, rfl, hrun,
    hdelivers.holds.gpr .rax rfl, hflags rfl⟩

end MachineCode
