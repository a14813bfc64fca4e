import MachineCode.Proofs.Execution.Values

/-! Methods that have been compiled and installed. What is shown of the code of an operation by
itself holds of this code in its place, among all the code of the method. -/
namespace MachineCode

open X64 Lower Chunk

namespace Site.Hosts

variable {S : Site} {pre new post : List Chunk} {final : Draft}

/-- The code of a method lies in front of its data. -/
theorem extent_le_dataStart (h : S.Hosts (pre ++ (new ++ post)) final) :
    extent (pre ++ new) ≤ S.dataStart := by
  obtain ⟨m, hm, hstart, -⟩ := h
  have hsize : m.code.size = extent (pre ++ (new ++ post)) := hm.size_eq
  have hle : m.code.size ≤ m.dataStart := m.size_code_le
  rw [← hstart]
  simp only [extent_append] at hsize ⊢
  omega

/-- The code of a method lies within its image. -/
theorem extent_le (h : S.Hosts (pre ++ (new ++ post)) final) :
    extent (pre ++ new) ≤ S.image.size := by
  have hcode := h.extent_le_dataStart
  obtain ⟨m, hm, hstart, -⟩ := h
  rw [hm.filled.size, Method.imageSize, hstart]
  exact Nat.le_add_right_of_le hcode

end Site.Hosts

/-- A method that has been compiled and installed, with an image that fits in memory. -/
structure Installation where
  target : Target
  source : MethodSource
  method : Method
  base : Word
  resolver : Resolver
  image : Array UInt8
  compiled : (compile target source).1 = .ok method
  installed : method.install base resolver = .ok image
  fits : image.size < 2 ^ 64

namespace Installation

/-- The method compiled and installed, where all of this succeeds. -/
def make? (target : Target) (source : MethodSource) (base : Word)
    (resolver : Resolver) : Option Installation :=
  match compiled : (compile target source).1 with
  | .error _ => none
  | .ok method =>
    match installed : method.install base resolver with
    | .error _ => none
    | .ok image =>
      if fits : image.size < 2 ^ 64 then
        some ⟨target, source, method, base, resolver, image, compiled, installed, fits⟩
      else none

theorem make?_eq_some {target : Target} {source : MethodSource} {base : Word} {resolver : Resolver}
    {I : Installation} (h : make? target source base resolver = some I) :
    I.target = target ∧ I.source = source ∧ I.base = base ∧ I.resolver = resolver := by
  unfold make? at h
  split at h
  · cases h
  · split at h
    · cases h
    · split at h <;> cases h
      exact ⟨rfl, rfl, rfl, rfl⟩

variable (I : Installation)

/-- A machine that is about to execute the code at `p`, with the image in its memory. -/
def enter (machine : Machine) (p : Nat) : Machine :=
  { machine.load I.base I.image with rip := I.base + BitVec.ofNat 64 p }

def site : Site := ⟨I.base, I.resolver, I.image, I.method.dataStart⟩

/-- The lowering of the method starts with this draft. -/
def Starts (d : Draft) : Prop :=
  Draft.start I.target I.source.frame I.source.name I.source.id = .ok d

/-- The lowering of the method ends with this draft. -/
def Ends (last : Draft) : Prop :=
  ∃ d, I.Starts d ∧ body I.source.constants I.source.ops d = .ok () last

/-- The code of the operation is between these positions. -/
def HasCode (op : Operation) (start stop : Nat) : Prop :=
  ∃ d before after, I.Starts d ∧ Reaches I.source.constants I.source.ops d (.operation op) before ∧
    operation op before = .ok () after ∧ before.buffer.position = start ∧
    after.buffer.position = stop

theorem exists_method :
    ∃ d d', I.Starts d ∧ Lower.method I.source.constants I.source.ops d = .ok I.method d' :=
  compile_eq_ok.mp I.compiled

/-- What the lowering gets to leads to the method, before and after. -/
theorem Starts.completes {I : Installation} {s : Source} {d before after : Draft} (h : I.Starts d)
    (hreach : Reaches I.source.constants I.source.ops d s before)
    (hlower : s.lower before = .ok () after) :
    d.Onward before ∧ before.Completes I.method ∧ after.Completes I.method := by
  obtain ⟨d₀, d', h', hm⟩ := I.exists_method
  cases h.symm.trans h'
  exact hreach.completes h hm hlower

/-- All of the method is lowered for its frame and its target. -/
theorem context_of_onward {d e : Draft} (hd : I.Starts d) (h : d.Onward e) :
    e.frame = I.source.frame ∧ e.target = I.target := by
  obtain ⟨journal, rfl⟩ := Draft.start_eq_ok hd
  exact ⟨h.frame, h.target⟩

variable {I}

/-- An operation of the method has its code, and the one that follows it has its own behind that. -/
theorem exists_hasCode_next (I : Installation) {op : Operation} {front back : List Operation}
    (hops : I.source.ops = front ++ op :: back) : ∃ start stop, I.HasCode op start stop ∧
      ∀ op' back', back = op' :: back' → ∃ stop', I.HasCode op' stop stop' := by
  obtain ⟨d, d', hd, hm⟩ := I.exists_method
  obtain ⟨d₂, hbody, -⟩ := method_eq_ok hm
  obtain ⟨_, d₁, hprepare, hbody⟩ := Step.bind_eq_ok.mp (body_eq _ _ ▸ hbody)
  obtain ⟨_, e, hsources, -⟩ := Step.bind_eq_ok.mp hbody
  let pre : List Source := .prologue :: front.map Source.operation
  have hsplit : Source.prologue :: I.source.ops.map Source.operation =
      pre ++ .operation op :: back.map Source.operation := by
    simp [hops, pre]
  rw [hsplit, List.forM_eq_forM, List.forM_append] at hsources
  obtain ⟨_, before, hfront, hsources⟩ := Step.bind_eq_ok.mp hsources
  rw [List.forM_cons] at hsources
  obtain ⟨_, after, hlower, hsources⟩ := Step.bind_eq_ok.mp hsources
  refine ⟨_, _, ⟨d, before, after, hd, .front hsplit ((Step.bind_of_ok hprepare).trans hfront),
    hlower, rfl, rfl⟩, ?_⟩
  rintro op' back' rfl
  rw [List.map_cons, List.forM_cons] at hsources
  obtain ⟨_, after', hlower', -⟩ := Step.bind_eq_ok.mp hsources
  have hsplit' : Source.prologue :: I.source.ops.map Source.operation =
      (pre ++ [Source.operation op]) ++ Source.operation op' :: back'.map Source.operation := by
    simp [hops, pre]
  have hfront' : (pre ++ [Source.operation op]).forM Source.lower d₁ = .ok () after := by
    rw [List.forM_eq_forM, List.forM_append, Step.bind_of_ok hfront]
    exact Step.bind_of_ok hlower
  exact ⟨_, d, after, after', hd,
    .front hsplit' ((Step.bind_of_ok hprepare).trans hfront'), hlower', rfl, rfl⟩

/-- Every operation of the method has its code. -/
theorem exists_hasCode (I : Installation) {op : Operation} (hop : op ∈ I.source.ops) :
    ∃ start stop, I.HasCode op start stop := by
  obtain ⟨front, back, hops⟩ := List.append_of_mem hop
  obtain ⟨start, stop, hcode, -⟩ := I.exists_hasCode_next hops
  exact ⟨start, stop, hcode⟩

theorem exists_ends (I : Installation) : ∃ last, I.Ends last := by
  obtain ⟨d, d', hd, hm⟩ := I.exists_method
  obtain ⟨last, hbody, -⟩ := method_eq_ok hm
  exact ⟨last, d, hd, hbody⟩

/-- The method is made from the last draft. -/
theorem Ends.completed {last : Draft} (h : I.Ends last) : Completed I.method last := by
  obtain ⟨d, hd, hbody⟩ := h
  obtain ⟨d₀, d', hd', hm⟩ := I.exists_method
  cases hd.symm.trans hd'
  obtain ⟨last', hbody', -, -, hcompleted⟩ := method_eq_ok hm
  cases hbody.symm.trans hbody'
  exact hcompleted

/-- What a step of the lowering lays down stands in the installed method. -/
theorem hosts_of_lays {C : Context} {x : Lower Unit} {K : Site.Claim} {before after last : Draft}
    (hbefore : before.Completes I.method) (hafter : after.Onward last)
    (hcompleted : Completed I.method last) (hC : C.Holds before)
    (hlays : Lays I.site C x fun _ => K) (hrun : x before = .ok () after) :
    ∃ pre new post, I.site.Hosts (pre ++ (new ++ post)) last ∧ K pre new last ∧
      extent pre = before.buffer.position ∧ extent (pre ++ new) = after.buffer.position := by
  obtain ⟨pre, hs⟩ := hbefore.sound
  obtain ⟨-, hprecedes, new, hs', hclaim⟩ := hlays pre before () after hC hs hrun
  obtain ⟨⟨post, hlast⟩, -⟩ := hafter.adds _ hs'
  have hstocked : last.Stocked := hafter.stocks.stocked (hprecedes.stocks.stocked hbefore.stocked)
  have hhosts : I.site.Hosts (pre ++ (new ++ post)) last := by
    rw [← List.append_assoc]
    exact ⟨I.method, Laid.installed ⟨hcompleted, hlast⟩ I.installed, rfl, hstocked⟩
  exact ⟨pre, new, post, hhosts, hclaim post last hhosts (.of_onward hafter hs'),
    hs.position.symm, hs'.position.symm⟩

/-- What a step in the lowering of a source lays down stands in the installed method, beside the
last draft. The name of what is lowered does not matter. -/
theorem hosts_of_reaches {s : Source} {x : Lower Unit} {K : Site.Claim}
    {d before d₁ after last : Draft} {name : String} (hd : I.Starts d) (hlast : I.Ends last)
    (hreach : Reaches I.source.constants I.source.ops d s before)
    (hlower : s.lower before = .ok () after) (hrun : x { before with current := name } = .ok () d₁)
    (hback : d₁.Onward after)
    (hlays : ∀ C, C.frame = I.source.frame → C.target = I.target → Lays I.site C x fun _ => K) :
    ∃ pre new post, I.site.Hosts (pre ++ (new ++ post)) last ∧ K pre new last ∧
      extent pre = before.buffer.position ∧ extent (pre ++ new) = d₁.buffer.position := by
  have hcompleted := hlast.completed
  obtain ⟨honward, hbefore, -⟩ := hd.completes hreach hlower
  obtain ⟨d₀, hd', hbody⟩ := hlast
  cases hd.symm.trans hd'
  obtain ⟨-, -, hafter⟩ := hreach.onward hd hbody hlower
  have hnamed : Draft.Completes { before with current := name } I.method := hbefore.renamed name
  obtain ⟨hframe, htarget⟩ := I.context_of_onward hd honward
  have hhosts := hosts_of_lays hnamed (hback.trans hafter) hcompleted (Context.holds_of hnamed.mark)
    (hlays _ hframe htarget) hrun
  exact hhosts

/-- What an operation lays down stands in the installed method, beside the last draft of the
lowering. -/
theorem HasCode.hosts_last {op : Operation} {start stop : Nat} {K : Site.Claim} {last : Draft}
    (h : I.HasCode op start stop) (hlast : I.Ends last)
    (hlays : ∀ C, C.frame = I.source.frame → C.target = I.target →
      Lays I.site C (lower op) fun _ => K) :
    ∃ pre new post, I.site.Hosts (pre ++ (new ++ post)) last ∧ K pre new last ∧
      extent pre = start ∧ extent (pre ++ new) = stop := by
  obtain ⟨d, before, after, hd, hreach, hlower, rfl, rfl⟩ := h
  obtain ⟨d₁, journal, hrun, rfl⟩ := operation_run hlower
  have hback : d₁.Onward { d₁ with journal := journal } := .of_same rfl rfl rfl rfl rfl
  have hhosts := hosts_of_reaches hd hlast hreach hlower hrun hback hlays
  exact hhosts

/-- What an operation lays down stands in the installed method. -/
theorem HasCode.hosts {op : Operation} {start stop : Nat} {K : Site.Claim}
    (h : I.HasCode op start stop)
    (hlays : ∀ C, C.frame = I.source.frame → C.target = I.target →
      Lays I.site C (lower op) fun _ => K) :
    ∃ pre new post final, I.site.Hosts (pre ++ (new ++ post)) final ∧
    Completed I.method final ∧ K pre new final ∧
      extent pre = start ∧ extent (pre ++ new) = stop := by
  obtain ⟨last, hlast⟩ := I.exists_ends
  obtain ⟨pre, new, post, hhosts, hclaim, hstart, hstop⟩ := h.hosts_last hlast hlays
  exact ⟨pre, new, post, last, hhosts, hlast.completed, hclaim, hstart, hstop⟩

theorem loaded_enter (machine : Machine) (p : Nat) : (I.enter machine p).Loaded I.base I.image :=
  (machine.loaded_load I.base (Nat.le_of_lt I.fits)).congr fun _ => rfl

/-- An address is not that of code that it does not belong to. -/
theorem ne_of_span {start stop n : Nat} {a : Word} (h : I.site.Span start stop a)
    (hstop : stop ≤ I.image.size) (hn : n ≤ I.image.size) (hout : n < start ∨ stop ≤ n) :
    a ≠ I.base + BitVec.ofNat 64 n := by
  obtain ⟨p, hstart, hlt, rfl⟩ := h
  intro heq
  have hfits := I.fits
  have := Site.addressOf_inj (S := I.site) (by omega) (by omega) heq
  omega

/-- A way through the code to its end gets there for the first time. -/
theorem runsTo_of_walks {pre new post : List Chunk} {final : Draft} {machine machine' : Machine}
    (hhosts : I.site.Hosts (pre ++ (new ++ post)) final)
    (hwalks : machine.Walks (I.site.Span (extent pre) (extent (pre ++ new))) machine')
    (hrip : machine'.rip = I.site.addressOf (extent (pre ++ new))) :
    machine.RunsTo (I.base + BitVec.ofNat 64 (extent (pre ++ new))) machine' :=
  hwalks.runsTo (fun _ h => ne_of_span h hhosts.extent_le hhosts.extent_le
    (.inr (Nat.le_refl _))) hrip

/-- Code that leads to no label runs to its end. -/
theorem exists_run_of_leads {A : Machine → Prop} {Q : Machine.Assertion} {pre new post : List Chunk}
    {final : Draft} {machine : Machine} (hhosts : I.site.Hosts (pre ++ (new ++ post)) final)
    (hleads : I.site.Leads (fun s c => c = s ∧ A s) Q noExit pre new final)
    (hloaded : machine.Loaded I.base I.image)
    (hrip : machine.rip = I.base + BitVec.ofNat 64 (extent pre)) (hA : A machine.core) :
    ∃ machine', machine.RunsTo (I.base + BitVec.ofNat 64 (extent (pre ++ new))) machine' ∧
      Q machine.core machine'.core := by
  obtain ⟨machine', hwalks, hend | ⟨l, p, -, hexit⟩⟩ :=
    hleads machine.core machine ⟨hloaded, hrip, rfl, hA⟩
  · exact ⟨machine', runsTo_of_walks hhosts hwalks hend.rip, hend.core⟩
  · exact hexit.core.elim

/-- The code of an operation leads from its start to its end, if it leads to no label. -/
theorem HasCode.exists_run {op : Operation} {start stop : Nat} {A : Machine → Prop}
    {Q : Unit → Machine.Assertion} {machine : Machine} (h : I.HasCode op start stop)
    (hlower : ∀ C, C.frame = I.source.frame → Computes I.site C (lower op) A Q)
    (hloaded : machine.Loaded I.base I.image) (hrip : machine.rip = I.base + BitVec.ofNat 64 start)
    (hA : A machine.core) : ∃ machine', machine.RunsTo (I.base + BitVec.ofNat 64 stop) machine' ∧
      Q () machine.core machine'.core := by
  obtain ⟨pre, new, post, final, hhosts, -, hleads, rfl, rfl⟩ :=
    h.hosts (K := I.site.Leads (fun s c => c = s ∧ A s) (Q ()) noExit) fun C hC _ => hlower C hC
  exact exists_run_of_leads hhosts hleads hloaded hrip hA

/-- A method installed at a base that is above the addresses that fault. -/
theorem exists_installed_with (target : Target) (source : MethodSource) (base : Word)
    (resolver : Resolver)
    (h : ((make? target source base resolver).any fun I => Machine.nullGuard.toNat ≤ base.toNat &&
      base.toNat + I.image.size < 2 ^ 64) = true) :
    ∃ I : Installation, I.target = target ∧ I.source = source ∧ I.base = base ∧
      Machine.nullGuard.toNat ≤ I.base.toNat ∧ I.base.toNat + I.image.size < 2 ^ 64 := by
  obtain ⟨I, hI, hfits⟩ := (Option.any_eq_true _ _).mp h
  obtain ⟨htarget, hsource, rfl, -⟩ := make?_eq_some hI
  rw [Bool.and_eq_true, decide_eq_true_iff, decide_eq_true_iff] at hfits
  exact ⟨I, htarget, hsource, rfl, hfits⟩

/-- The same for a method without calls and objects. -/
theorem exists_installed (target : Target) (source : MethodSource) (base : Word)
    (h : ((make? target source base ⟨fun _ => none, fun _ => none⟩).any fun I =>
      Machine.nullGuard.toNat ≤ base.toNat && base.toNat + I.image.size < 2 ^ 64) = true) :
    ∃ I : Installation, I.target = target ∧ I.source = source ∧ I.base = base ∧
      Machine.nullGuard.toNat ≤ I.base.toNat ∧ I.base.toNat + I.image.size < 2 ^ 64 :=
  exists_installed_with target source base _ h

/-- A method of one operation, installed at a base and entered at the code of the operation. The
base is above the addresses that fault, and no others do. -/
theorem exists_entered (target : Target) (op : Operation) (base : Word) (machine : Machine)
    (h : ((make? target ⟨"test", none, .empty, [], [op, .ret none]⟩ base
      ⟨fun _ => none, fun _ => none⟩).any fun I =>
        Machine.nullGuard.toNat ≤ base.toNat && base.toNat + I.image.size < 2 ^ 64) = true)
    (hranges : machine.protectedRanges = []) :
    ∃ (I : Installation) (start stop : Nat), I.target = target ∧ I.source.frame = .empty ∧
    I.HasCode op start stop ∧
      (I.enter machine start).Loaded I.base I.image ∧
      (I.enter machine start).rip = I.base + BitVec.ofNat 64 start ∧
      I.site.Readable (I.enter machine start) := by
  obtain ⟨I, htarget, hsource, -, hlow, hhigh⟩ := exists_installed target _ base h
  obtain ⟨start, stop, hcode⟩ := I.exists_hasCode (by simp [hsource] : op ∈ I.source.ops)
  exact ⟨I, start, stop, htarget, by rw [hsource], hcode, loaded_enter machine start, rfl,
    Site.readable_of_unprotected hranges hlow hhigh⟩

end Installation

end MachineCode
