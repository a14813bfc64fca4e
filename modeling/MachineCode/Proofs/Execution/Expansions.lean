import MachineCode.Proofs.Execution.Installations
import MachineCode.Proofs.Labels.SlowPaths

/-! The code of micro-operations in methods that have been compiled and installed, in the place of a
template or in its slow path. -/
namespace MachineCode

open X64 Lower Chunk

/-! ### Drafts -/

/-- New labels continue a draft. -/
theorem Draft.onward_newLabels (d : Draft) (name : String) (n : Nat) :
    d.Onward { d with current := name, buffer := (d.buffer.newLabels n).2 } where
  frame := rfl
  target := rfl
  adds cs hs := by
    have hs' : Sound cs { d with buffer := d.buffer.withLabels n } := hs.withLabels n
    refine ⟨⟨[], ?_⟩, fun l p hl => ?_⟩
    · rw [List.append_nil]
      exact { hs' with }
    · exact CodeBuffer.labelOffset_withLabels.trans hl
  accrues := .refl _
  stocks := .of_same rfl rfl

/-- Micro-operations continue a draft. -/
theorem onward_microOps {x : Expansion} {ops : List MicroOp} {d d' : Draft}
    (hmark : d.buffer.mark = none) (hrun : ops.forM (microOp x) d = .ok () d') :
    d.Onward d' ∧ d'.buffer.mark = none := by
  have hdoes := does_microOps_uncounting (Context.of d) x ops
  exact ⟨hdoes.onward (Context.holds_of hmark) hrun,
    (hdoes.run (Context.holds_of hmark) hrun).2.1.mark⟩

/-- Where a template is lowered, its micro-operations are, one after the other. -/
theorem Source.Expands.run {s : Source} {x : Expansion} {ops : List MicroOp} {e e' started : Draft}
    (h : s.Expands e x ops started) (hmark : e.buffer.mark = none)
    (hlower : s.lower e = .ok () e') :
    e.Onward started ∧ started.buffer.mark = none ∧
      ∃ last, ops.forM (microOp x) started = .ok () last ∧ last.Onward e' := by
  cases h with
  | fast t operands info infoAfter =>
    obtain ⟨d₁, journal, hrun, rfl⟩ := operation_run hlower
    have hrun : template t operands info infoAfter { e with current := "xir" } = .ok () d₁ := hrun
    obtain ⟨last, hfast, rfl⟩ := template_run hrun
    refine ⟨e.onward_newLabels _ _, hmark, last, hfast, ?_⟩
    split <;> exact .of_same rfl rfl rfl rfl rfl
  | slow x =>
    obtain ⟨last, stop, hrun, rfl⟩ := templateSlowPath_run hlower
    let started : Draft := { e with current := "xir" }
    have hlast : last.buffer.mark = none := (onward_microOps (d := started) hmark hrun).2
    have hnops : last.Onward { last with buffer := last.buffer.append (nops 1) } :=
      (does_nops (C := Context.of last) (e := .uncounting) 1).onward (Context.holds_of hlast) rfl
    exact ⟨.of_same rfl rfl rfl rfl rfl, hmark, last, hrun,
      hnops.trans (.of_same rfl rfl rfl rfl rfl)⟩

/-- The drafts in front of a micro-operation and behind it continue that of the source, and lead to
its end. -/
theorem Source.Expands.onward {s : Source} {x : Expansion} {front back : List MicroOp}
    {op : MicroOp} {e e' started before after : Draft}
    (h : s.Expands e x (front ++ op :: back) started) (hmark : e.buffer.mark = none)
    (hlower : s.lower e = .ok () e') (hfront : front.forM (microOp x) started = .ok () before)
    (hop : microOp x op before = .ok () after) :
    e.Onward before ∧ before.buffer.mark = none ∧ before.Onward after ∧ after.buffer.mark = none ∧
    after.Onward e' := by
  obtain ⟨hstarted, hmark, last, hrun, hlast⟩ := h.run hmark hlower
  rw [List.forM_eq_forM, List.forM_append, ← List.forM_eq_forM, Step.bind_of_ok hfront] at hrun
  obtain ⟨_, after', hop', hback⟩ := Step.bind_eq_ok.mp hrun
  cases hop.symm.trans hop'
  obtain ⟨hbefore, hmark⟩ := onward_microOps hmark hfront
  have hsingle : [op].forM (microOp x) before = .ok () after := Step.bind_of_ok hop
  obtain ⟨hstep, hmark'⟩ := onward_microOps hmark hsingle
  exact ⟨hstarted.trans hbefore, hmark, hstep, hmark', (onward_microOps hmark' hback).1.trans hlast⟩

namespace Installation

/-- The code of the micro-operation is between these positions. -/
inductive HasMicro (I : Installation) (x : Expansion) (op : MicroOp) : Nat → Nat → Prop
  | intro {d e e' started before after : Draft} {s : Source} {front back : List MicroOp}
    (hstart : I.Starts d)
    (hreach : Reaches I.source.constants I.source.ops d s e) (hlower : s.lower e = .ok () e')
    (hexpands : s.Expands e x (front ++ op :: back) started)
    (hfront : front.forM (microOp x) started = .ok () before)
      (hop : microOp x op before = .ok () after) :
    HasMicro I x op before.buffer.position after.buffer.position

variable {I : Installation} {x : Expansion} {op : MicroOp} {start stop : Nat}

/-- What a micro-operation lays down stands in the installed method, beside the last draft of the
lowering. -/
theorem HasMicro.hosts_last {K : Site.Claim} {last : Draft} (h : I.HasMicro x op start stop)
    (hlast : I.Ends last)
    (hlays : ∀ C, C.frame = I.source.frame → C.target = I.target →
      Lays I.site C (microOp x op) fun _ => K) :
    ∃ pre new post, I.site.Hosts (pre ++ (new ++ post)) last ∧ K pre new last ∧
      extent pre = start ∧ extent (pre ++ new) = stop := by
  cases h with
  | intro hd hreach hlower hexpands hfront hop =>
    obtain ⟨honward, he, -⟩ := hd.completes hreach hlower
    have hcompleted := hlast.completed
    obtain ⟨d₀, hd', hbody⟩ := hlast
    cases hd.symm.trans hd'
    obtain ⟨-, -, hafter⟩ := hreach.onward hd hbody hlower
    obtain ⟨hbefore, hmark, hstep, -, hrest⟩ := hexpands.onward he.mark hlower hfront hop
    have hcompletes := he.of_onward hbefore hmark ⟨_, hstep.trans (hrest.trans hafter), hcompleted⟩
    obtain ⟨hframe, htarget⟩ := I.context_of_onward hd (honward.trans hbefore)
    have hhosts := hosts_of_lays hcompletes (hrest.trans hafter) hcompleted (Context.holds_of hmark)
      (hlays _ hframe htarget) hop
    exact hhosts

/-- What a micro-operation lays down stands in the installed method. -/
theorem HasMicro.hosts {K : Site.Claim} (h : I.HasMicro x op start stop)
    (hlays : ∀ C, C.frame = I.source.frame → C.target = I.target →
      Lays I.site C (microOp x op) fun _ => K) :
    ∃ pre new post final, I.site.Hosts (pre ++ (new ++ post)) final ∧
    Completed I.method final ∧ K pre new final ∧
      extent pre = start ∧ extent (pre ++ new) = stop := by
  obtain ⟨last, hlast⟩ := I.exists_ends
  obtain ⟨pre, new, post, hhosts, hclaim, hstart, hstop⟩ := h.hosts_last hlast hlays
  exact ⟨pre, new, post, last, hhosts, hlast.completed, hclaim, hstart, hstop⟩

/-- All micro-operations on the fast path of a template have their code, with the labels of the one
expansion. -/
theorem exists_hasMicros (I : Installation) {t : Template} {operands : List Operand}
    {info infoAfter : Option DebugInfo} (ht : .template t operands info infoAfter ∈ I.source.ops) :
    ∃ labels, ∀ op ∈ t.fastPath, ∃ start stop,
      I.HasMicro ⟨t, operands, labels, info, infoAfter⟩ op start stop := by
  obtain ⟨start, stop, d, e, e', hd, hreach, hlower, -, -⟩ := I.exists_hasCode ht
  obtain ⟨-, he, -⟩ := hd.completes hreach hlower
  refine ⟨(e.buffer.newLabels t.labelCount).1, fun op hop => ?_⟩
  have hexpands := Source.Expands.fast t operands info infoAfter e
  obtain ⟨-, -, last, hrun, -⟩ := hexpands.run he.mark hlower
  obtain ⟨front, back, hsplit⟩ := List.append_of_mem hop
  rw [hsplit] at hexpands
  rw [hsplit, List.forM_eq_forM, List.forM_append] at hrun
  obtain ⟨_, before, hfront, hrun⟩ := Step.bind_eq_ok.mp hrun
  obtain ⟨_, after, hop, -⟩ := Step.bind_eq_ok.mp hrun
  exact ⟨_, _, .intro hd hreach hlower hexpands hfront hop⟩

/-- Every micro-operation on the fast path of a template has its code. -/
theorem exists_hasMicro (I : Installation) {t : Template} {operands : List Operand}
    {info infoAfter : Option DebugInfo} (ht : .template t operands info infoAfter ∈ I.source.ops)
    (hop : op ∈ t.fastPath) :
    ∃ labels start stop, I.HasMicro ⟨t, operands, labels, info, infoAfter⟩ op start stop := by
  obtain ⟨labels, hmicros⟩ := I.exists_hasMicros ht
  exact ⟨labels, hmicros op hop⟩

end Installation

end MachineCode
