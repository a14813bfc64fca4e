import MachineCode.Proofs.Execution.Installations
import MachineCode.Proofs.Labels.SlowPaths

/-! Code that has been put off, in the installed method. What an operation puts off has its own
code, behind the code of all operations. -/
namespace MachineCode

open X64 Lower Chunk

/-! ### The queue -/

/-- Code is only added. -/
theorem Draft.Onward.position_le {d d' : Draft} {cs : List Chunk} (h : d.Onward d')
    (hs : Sound cs d) :
    d.buffer.position ≤ d'.buffer.position := by
  obtain ⟨⟨new, hs'⟩, -⟩ := h.adds cs hs
  rw [hs.position, hs'.position, extent_append]
  exact Nat.le_add_right _ _

/-- What has been put off is still in the queue when more sources have been lowered. -/
theorem mem_pending_of_sources {ss : List Source} {d d' : Draft} {path : SlowPath}
    (hmark : d.buffer.mark = none) (hrun : ss.forM Source.lower d = .ok () d')
    (h : path ∈ d.pending.toList) : path ∈ d'.pending.toList := by
  obtain ⟨ps, hps⟩ := exists_counted hmark hrun
  rw [hps.pending]
  exact List.mem_append_left _ h

namespace Reaches

variable {target : Target} {frame : Frame} {name : String} {id : Option UInt32}
  {constants : List DataConstant}
  {ops : List Operation} {d e e' d₂ f last : Draft} {op : Operation} {path : SlowPath}

/-- What an operation has put off is in the queue when all operations have been lowered. -/
theorem mem_pending (hreach : Reaches constants ops d (.operation op) e)
    (hlower : operation op e = .ok () e') (hmark : e'.buffer.mark = none)
    (hfront : (preparation constants ops >>=
      fun _ => (Source.prologue :: ops.map .operation).forM Source.lower) d = .ok () d₂) :
    e'.Onward d₂ ∧ d₂.buffer.mark = none ∧
    ∀ path ∈ e'.pending.toList, path ∈ d₂.pending.toList := by
  cases hreach with
  | @front pre post _ e hsources hrun =>
    obtain ⟨_, d₁, hprepare, hpre⟩ := Step.bind_eq_ok.mp hrun
    rw [Step.bind_of_ok hprepare, hsources, List.forM_eq_forM, List.forM_append,
      ← List.forM_eq_forM, Step.bind_of_ok hpre] at hfront
    obtain ⟨_, e'', hs, hpost⟩ := Step.bind_eq_ok.mp hfront
    cases hlower.symm.trans hs
    obtain ⟨honward, hmark₂⟩ := onward_sources hmark hpost
    exact ⟨honward, hmark₂, fun path => mem_pending_of_sources hmark hpost⟩

/-- The lowering of a method gets to what one of its operations has put off. -/
theorem exists_slowPath (hbody : body constants ops d = .ok () last)
    (hreach : Reaches constants ops d (.operation op) e) (hlower : operation op e = .ok () e')
    (hmark : e'.buffer.mark = none) (hpath : path ∈ e'.pending.toList) :
    ∃ f f', Reaches constants ops d (.slowPath path) f ∧ slowPath path f = .ok () f' := by
  rw [body_eq, ← bind_assoc] at hbody
  obtain ⟨_, d₂, hfront, hbody⟩ := Step.bind_eq_ok.mp hbody
  obtain ⟨_, d₃, hback, -⟩ := Step.bind_eq_ok.mp hbody
  obtain ⟨-, -, hmem⟩ := hreach.mem_pending hlower hmark hfront
  obtain ⟨before, after, hpaths⟩ := List.append_of_mem (hmem path hpath)
  have hback : (before ++ path :: after).forM slowPath { d₂ with pending := #[] } = .ok () d₃ :=
    hpaths ▸ hback
  rw [List.forM_eq_forM, List.forM_append] at hback
  obtain ⟨_, f, hbefore, hback⟩ := Step.bind_eq_ok.mp hback
  rw [List.forM_cons] at hback
  obtain ⟨_, f', hlower', -⟩ := Step.bind_eq_ok.mp hback
  exact ⟨f, f', .back hfront hpaths hbefore, hlower'⟩

/-- Code that is put off is behind the code of all operations. -/
theorem onward_slowPath (hreach : Reaches constants ops d (.operation op) e)
    (hlower : operation op e = .ok () e') (hmark : e'.buffer.mark = none)
    (hpath : Reaches constants ops d (.slowPath path) f) : e'.Onward f := by
  cases hpath with
  | front hsources =>
    have hmem : Source.slowPath path ∈ Source.prologue :: ops.map Source.operation := by
      simp [hsources]
    simp at hmem
  | @back before after _ d₂ _ hfront hpaths hrun =>
    obtain ⟨honward, hmark₂, -⟩ := hreach.mem_pending hlower hmark hfront
    let taken : Draft := { d₂ with pending := #[] }
    have htaken : d₂.Onward taken := .of_same rfl rfl rfl rfl rfl
    have hsources : (before.map Source.slowPath).forM Source.lower taken = .ok () f := by
      rw [List.forM_eq_forM, List.forM_map]
      exact hrun
    exact honward.trans (htaken.trans (onward_sources (d := taken) hmark₂ hsources).1)

end Reaches

/-! ### Installed code -/

namespace Installation

variable (I : Installation) {path : SlowPath} {start stop p q : Nat} {op : Operation}

/-- The code that has been put off is between these positions. -/
def HasSlowPath (path : SlowPath) (start stop : Nat) : Prop :=
  ∃ d before after, I.Starts d ∧ Reaches I.source.constants I.source.ops d (.slowPath path) before ∧
    slowPath path before = .ok () after ∧ before.buffer.position = start ∧
    after.buffer.position = stop

variable {I}

/-- What it lays down stands in the installed method, beside the last draft of the lowering. -/
theorem HasSlowPath.hosts_last {K : Site.Claim} {last : Draft} (h : I.HasSlowPath path start stop)
    (hlast : I.Ends last)
    (hlays : ∀ C, C.frame = I.source.frame → C.target = I.target →
      Lays I.site C path.code fun _ => K) :
    ∃ pre new post, I.site.Hosts (pre ++ (new ++ post)) last ∧ K pre new last ∧
      extent pre = start ∧ extent (pre ++ new) = stop := by
  obtain ⟨d, before, after, hd, hreach, hlower, rfl, rfl⟩ := h
  obtain ⟨d₁, journal, hrun, rfl⟩ := slowPath_cases.1 after hlower
  have hback : d₁.Onward { d₁ with journal := journal } := .of_same rfl rfl rfl rfl rfl
  have hhosts := hosts_of_reaches hd hlast hreach hlower hrun hback hlays
  exact hhosts

/-- What an operation has put off has its code. -/
theorem exists_hasSlowPath {d before after : Draft} (hd : I.Starts d)
    (hreach : Reaches I.source.constants I.source.ops d (.operation op) before)
    (hlower : operation op before = .ok () after) (hpath : path ∈ after.pending.toList) :
    ∃ p q, I.HasSlowPath path p q := by
  obtain ⟨last, d₀, hd', hbody⟩ := I.exists_ends
  cases hd.symm.trans hd'
  obtain ⟨-, -, hafter⟩ := hd.completes hreach hlower
  obtain ⟨f, f', hback, hlower'⟩ := hreach.exists_slowPath hbody hlower hafter.mark hpath
  exact ⟨_, _, d, f, f', hd, hback, hlower', rfl, rfl⟩

/-- It is behind the code of all operations. -/
theorem HasSlowPath.stop_le (h : I.HasSlowPath path p q)
    (hcode : I.HasCode op start stop) : stop ≤ p := by
  obtain ⟨d, f, f', hd, hback, -, rfl, -⟩ := h
  obtain ⟨d₀, before, after, hd', hreach, hlower, -, rfl⟩ := hcode
  cases hd.symm.trans hd'
  obtain ⟨-, -, hafter⟩ := hd.completes hreach hlower
  obtain ⟨cs, hs⟩ := hafter.sound
  exact (hreach.onward_slowPath hlower hafter.mark hback).position_le hs

end Installation

end MachineCode
