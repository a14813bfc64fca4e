import MachineCode.Proofs.Execution.Laying
import MachineCode.Proofs.References.Sharing

/-! Data sections of methods. A section is what calls have asked for in the course of the lowering,
and in the image the entries of these calls are as they should be: constants unaltered, and slots
with the addresses of their objects. -/
namespace MachineCode

open Lower DataTrace

namespace Draft

variable {d d' last : Draft} {constants : List DataConstant} {ops : List Operation}

theorem feeds_sources {sources : List Source} (hmark : d.buffer.mark = none)
    (hrun : sources.forM Source.lower d = .ok () d') : d.Feeds d' := by
  induction sources generalizing d with
  | nil =>
    cases hrun
    exact .same rfl rfl
  | cons s sources ih =>
    obtain ⟨_, d₁, h₁, hrun⟩ := Step.bind_eq_ok.mp hrun
    have hfeeds := (s.does_lower d).feeds (Context.holds_of hmark) h₁
    exact hfeeds.trans (ih (onward_lower hmark h₁).2 hrun)

theorem feeds_slowPaths (hmark : d.buffer.mark = none)
    (hrun : slowPaths d = .ok () d') : d.Feeds d' := by
  have htaken : d.Feeds { d with pending := #[] } := .same rfl rfl
  exact htaken.trans (feeds_sources hmark (slowPaths_eq_ok hrun))

/-- From the first draft of a method to the last one. -/
theorem onward_body (hmark : d.buffer.mark = none) (hbody : body constants ops d = .ok () last) :
    d.Onward last ∧ d.Feeds last := by
  rw [body_eq] at hbody
  obtain ⟨_, d₁, hprepare, hbody⟩ := Step.bind_eq_ok.mp hbody
  obtain ⟨_, d₂, hfront, hbody⟩ := Step.bind_eq_ok.mp hbody
  obtain ⟨_, d₃, hback, hempty⟩ := Step.bind_eq_ok.mp hbody
  have hholds : (Context.of d).Holds d := Context.holds_of hmark
  have hprepared :=
    does_preparation (C := Context.of d) (e := (Source.prologue).effect 0) constants ops
  have hmark₁ := (hprepared.run hholds hprepare).2.1.mark
  obtain ⟨honward₂, hmark₂⟩ := onward_sources hmark₁ hfront
  obtain ⟨honward₃, hmark₃⟩ := onward_slowPaths hmark₂ hback
  obtain ⟨honward₄, -⟩ := onward_slowPaths hmark₃ hempty
  refine ⟨(hprepared.onward hholds hprepare).trans (honward₂.trans (honward₃.trans honward₄)), ?_⟩
  exact (hprepared.feeds hholds hprepare).trans
    ((feeds_sources hmark₁ hfront).trans
      ((feeds_slowPaths hmark₂ hback).trans (feeds_slowPaths hmark₃ hempty)))

end Draft

/-- The entries of a method in its image, where it has been installed. -/
structure Method.HoldsEntries (m : Method) (r : Resolver) (image : Array UInt8)
    (t : DataTrace) : Prop where
  data : m.data = t.data.bytes
  listed : ∀ x : DataObject, x ∈ m.tables.dataObjects ↔
    ∃ e ∈ t.entries, e.key = .slot x.object ∧ e.offset = x.dataOffset
  constants : ∀ e ∈ t.entries, ∀ k, e.key = .constant k →
    BytesAt image (m.dataStart + e.offset) k.bytes
  slots : ∀ e ∈ t.entries, ∀ o, e.key = .slot o →
    ∃ a, r.object o = some a ∧ BytesAt image (m.dataStart + e.offset) (leBytes 8 a.toNat)

/-- Every call for a constant or a slot of a method has its entry in the image. -/
theorem exists_calls_of_install {target : Target} {source : MethodSource} {m : Method} {base : Word}
    {r : Resolver} {image : Array UInt8} (hm : (compile target source).1 = .ok m)
    (hi : m.install base r = .ok image) :
    ∃ calls : List DataCall, (∀ c ∈ calls, (c.key 0).IsShared) ∧
    m.HoldsEntries r image (empty.run calls) := by
  obtain ⟨d, d', hd, hmethod⟩ := compile_eq_ok.mp hm
  obtain ⟨last, hbody, -, -, hcompleted⟩ := method_eq_ok hmethod
  obtain ⟨hmark, hempty, hlisted⟩ : d.buffer.mark = none ∧ d.data = .empty ∧ d.Listed := by
    obtain ⟨journal, rfl⟩ := Draft.start_eq_ok hd
    exact ⟨rfl, rfl, fun x => ⟨nofun, nofun⟩⟩
  obtain ⟨honward, hfeeds⟩ := Draft.onward_body hmark hbody
  obtain ⟨calls, hshared, hrun⟩ := hfeeds.exists_run
  have hdata : (empty.run calls).data = last.data := hrun empty hempty.symm
  have hconsistent := consistent_empty.run calls
  obtain ⟨⟨cs, hs⟩, -⟩ := honward.adds [] (sound_start hd)
  have hhosts : Site.Hosts ⟨base, r, image, m.dataStart⟩ cs last :=
    ⟨m, Laid.installed ⟨hcompleted, hs⟩ hi, rfl, honward.stocks.stocked (stocked_start hd)⟩
  have hfound : ∀ e ∈ (empty.run calls).entries, ∀ key, e.key = key → key.IsShared →
      last.data.find? key = some e.offset := by
    rintro e he _ rfl hshared
    exact hdata ▸ hconsistent.found e he hshared
  refine ⟨calls, hshared, hdata ▸ hcompleted.data, fun x => ?_, fun e he k hk => ?_,
    fun e he o ho => ?_⟩
  · have htables : m.tables.dataObjects = last.tables.dataObjects := by rw [hcompleted.tables]
    rw [htables, hfeeds.listed hlisted x]
    constructor
    · intro hlookup
      exact hconsistent.known (.slot x.object) x.dataOffset (hdata ▸ hlookup)
    · rintro ⟨e, he, hkey, hoffset⟩
      exact hoffset ▸ hfound e he _ hkey trivial
  · exact hhosts.constant (DataSection.mem_of_lookup (hfound e he _ hk trivial))
  · exact hhosts.slot (DataSection.mem_of_lookup (hfound e he _ ho trivial))

/-- Calls are given entries that are aligned, lie inside the section, and keep their offsets and
bytes whatever calls follow. Calls of one key share an entry, and those of different keys have
theirs apart, so that filling in slots leaves all other entries as they are. In the image of a
method constants have their bytes, and slots have addresses. -/
theorem DataTrace.keeps_entries (calls later : List DataCall) :
    (empty.run calls).entries.map DataEntry.call = calls ∧
    (empty.run calls).Keeps ((empty.run calls).run later) ∧
    (∀ (m : Method) (r : Resolver) (linked image : Array UInt8),
      (∀ x ∈ m.tables.dataObjects, ∃ e ∈ (empty.run calls).entries, e.key = .slot x.object ∧
        e.offset = x.dataOffset) →
      m.fillSlots r linked = .ok image → ∀ e ∈ (empty.run calls).entries, (∀ o, e.key ≠ .slot o) →
        ∀ i, e.offset ≤ i → i < e.stop → image[m.dataStart + i]? = linked[m.dataStart + i]?) ∧
    ∀ (target : Target) (source : MethodSource) (m : Method) (base : Word) (r : Resolver)
      (image : Array UInt8),
      (compile target source).1 = .ok m → m.install base r = .ok image →
      ∃ calls : List DataCall, (∀ c ∈ calls, (c.key 0).IsShared) ∧
      m.HoldsEntries r image (empty.run calls) := by
  have hconsistent := consistent_empty.run calls
  refine ⟨(entries_run empty calls).2, hconsistent.keeps later, ?_, ?_⟩
  · exact fun m r linked image hslots hfill e he hkey i hlow hhigh =>
      hconsistent.fillSlots hslots hfill he hkey hlow hhigh
  · exact fun target source m base r image => exists_calls_of_install

/-- A constant, a slot, a float, the constant again, and a single byte. The slot is filled in beside
the constant, here and in a method that has both in its data section. -/
theorem DataTrace.keeps_entries_slot :
    let t := empty.run [.constant [1, 2, 3] 4, .objectSlot ⟨3⟩, .floatBits 1,
      .constant [1, 2, 3] 4, .emitAligned [7] 0]
    let m : Method :=
      ⟨"slot", #[], t.data.bytes, 0, 1, { SideTables.empty with dataObjects := #[⟨8, ⟨3⟩⟩] }, 0, 0⟩
    let r : Resolver := .ofTables [] [(⟨3⟩, 0x1234)]
    let target : Target := ⟨Options.standard, ⟨true, true⟩, 4096⟩
    let load : Operation := .move (.const (.object ⟨3⟩)) (.reg (.general 0) .object)
    let source : MethodSource := ⟨"load", none, .empty, [⟨[1, 2, 3], 4⟩], [load, .ret none]⟩
    t.entries.map DataEntry.offset = [0, 8, 16, 0, 20] ∧
    (DataCall.constant [1, 2, 3] 4).run t.data = (0, t.data) ∧ (t.data.objectSlot ⟨3⟩).1.2 = false ∧
    (∃ image, m.fillSlots r m.layout = .ok image ∧
      ∀ i < 3, image[m.dataStart + i]? = m.layout[m.dataStart + i]?) ∧
    ∃ m' image calls, (compile target source).1 = .ok m' ∧ m'.install 0x10000 r = .ok image ∧
      m'.HoldsEntries r image (empty.run calls) := by
  intro t m r target load source
  obtain ⟨-, hkeeps, hfills, hinstalls⟩ := keeps_entries
    [.constant [1, 2, 3] 4, .objectSlot ⟨3⟩, .floatBits 1, .constant [1, 2, 3] 4,
      .emitAligned [7] 0] []
  have hconstant : ⟨.constant [1, 2, 3] 4, 0, 0⟩ ∈ t.entries := by decide +kernel
  refine ⟨by decide +kernel,
    hkeeps.shared _ hconstant trivial (.constant [1, 2, 3] 4) 0 rfl, ?_, ?_, ?_⟩
  · have hold := (hkeeps.fresh ⟨3⟩).not.mpr (not_not.mpr (by decide +kernel))
    exact Bool.eq_false_iff.mpr hold
  · have hslots : ∀ x ∈ m.tables.dataObjects, ∃ e ∈ t.entries, e.key = .slot x.object ∧
        e.offset = x.dataOffset := by
      intro x hx
      obtain rfl : x = ⟨8, ⟨3⟩⟩ := by simpa [m] using hx
      exact ⟨⟨.objectSlot ⟨3⟩, 1, 8⟩, by decide +kernel, rfl, rfl⟩
    have hok : (m.fillSlots r m.layout).isOk = true := by decide +kernel
    cases hfill : m.fillSlots r m.layout with
    | ok image =>
      exact ⟨image, rfl,
        fun i hi => hfills m r m.layout image hslots hfill _ hconstant nofun i (Nat.zero_le i) hi⟩
    | error => rw [hfill] at hok; cases hok
  · have hok : ((compile target source).1 >>= fun m' => m'.install 0x10000 r).isOk = true := by
      decide +kernel
    cases hboth : (compile target source).1 >>= fun m' => m'.install 0x10000 r with
    | ok image =>
      obtain ⟨m', hm, hi⟩ := Step.except_bind_eq_ok.mp hboth
      obtain ⟨calls, -, hentries⟩ := hinstalls target source m' 0x10000 r image hm hi
      exact ⟨m', image, calls, hm, hi, hentries⟩
    | error => rw [hboth] at hok; cases hok

end MachineCode
