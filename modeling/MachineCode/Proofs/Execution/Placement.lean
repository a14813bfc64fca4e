import MachineCode.Proofs.Execution.Regions
import MachineCode.Proofs.Labels.Hygiene

/-! Where the code of a part lies. The code of an operation, in its place and put off, is a region:
its branches go to labels of its own, and these are bound in it. -/
namespace MachineCode

open X64 Lower Chunk Piece

/-! ### Chunks in a row -/

namespace Chunk

variable {cs : List Chunk} {offset a : Nat} {c : Chunk}

/-- Behind a chunk there is another one, or it is the last. -/
theorem next_placed (h : (a, c) ∈ placed offset cs) :
    (∃ c', (a + c.size, c') ∈ placed offset cs) ∨
      (∃ front, cs = front ++ [c]) ∧ a + c.size = offset + extent cs := by
  obtain ⟨front, back, rfl, rfl⟩ := split_of_placed h
  cases back with
  | nil => exact .inr ⟨⟨front, rfl⟩, by simp [Nat.add_assoc]⟩
  | cons c' back =>
    refine .inl ⟨c', ?_⟩
    rw [placed_append, placed, placed]
    simp

theorem lt_of_branch {d : Draft} {short : Bool} {cond : Option Cond} {l : Label} (hs : Sound cs d)
    (h : .branch short cond l ∈ cs) : l.index < d.buffer.labels.size := by
  obtain ⟨front, back, rfl⟩ := List.append_of_mem h
  obtain ⟨s, hsite⟩ : ∃ s, s ∈ sites l (0 + total (all front)) (branch short cond l).pieces := by
    cases short <;> simp [pieces, sites]
  refine BufferOp.lt_of_site hs.written (s := s) ?_
  rw [all_append, all_cons, sites_append, sites_append]
  exact List.mem_append_right _ (List.mem_append_left _ hsite)

end Chunk

/-! ### Parts in the chunks of a method -/

/-- The part adds these chunks behind those in front of it. -/
structure Part.Lies (cs : List Chunk) (p : Part) (pre new : List Chunk) : Prop where
  split : ∃ post, cs = pre ++ new ++ post
  before : Sound pre p.before
  after : Sound (pre ++ new) p.after

namespace Part.Lies

variable {cs pre new : List Chunk} {p : Part} {x : Nat × Chunk} {l : Label} {a : Nat}

theorem mem_placed (h : p.Lies cs pre new)
    (hx : x ∈ placed (extent pre) new) : x ∈ placed 0 cs := by
  obtain ⟨post, rfl⟩ := h.split
  refine mem_placed_append ?_
  rw [placed_append, Nat.zero_add]
  exact List.mem_append_right _ hx

theorem stop_eq (h : p.Lies cs pre new) : p.after.buffer.position = extent pre + extent new := by
  rw [h.after.position, extent_append]

/-- The part starts with a chunk, or it is empty. -/
theorem start (h : p.Lies cs pre new) : p.before.buffer.position = p.after.buffer.position ∨
    ∃ c, (p.before.buffer.position, c) ∈ placed (extent pre) new := by
  rw [h.before.position, h.stop_eq]
  cases new with
  | nil => exact .inl rfl
  | cons c new => exact .inr ⟨c, List.mem_cons_self⟩

/-- A label that is bound in the part is bound at the end or where a chunk starts. -/
theorem inside (h : p.Lies cs pre new) (hle : p.before.buffer.position ≤ a)
    (hl : p.after.buffer.labelOffset l = some a) :
    a = p.after.buffer.position ∨ ∃ c, (a, c) ∈ placed (extent pre) new := by
  rw [h.before.position] at hle
  obtain rfl | ⟨c, hc, -⟩ := h.after.labels l a hl
  · exact .inl h.after.position.symm
  · rw [placed_append, Nat.zero_add] at hc
    obtain hc | hc := List.mem_append.mp hc
    · -- A chunk in front can start here only if it is empty.
      have hend : a = p.before.buffer.position := by
        have := (placed_le hc).2
        rw [h.before.position]
        omega
      rw [hend]
      exact h.start
    · exact .inr ⟨c, hc⟩

end Part.Lies

/-- All parts are lowered for the same frame. -/
theorem Chain.frame_eq {d d' : Draft} {ps : List Part} {p : Part} (h : Chain d ps d')
    (hps : ∀ p ∈ ps, p.Lowered) (hp : p ∈ ps) : p.before.frame = d.frame := by
  induction ps generalizing d with
  | nil => cases hp
  | cons q ps ih =>
    obtain ⟨⟨queue, hbefore⟩, h⟩ := h
    obtain ⟨hq, hps⟩ := List.forall_mem_cons.mp hps
    have hstart : q.before.frame = d.frame := by rw [hbefore]
    obtain rfl | hp := List.mem_cons.mp hp
    · exact hstart
    · have hafter :=
        ((q.source.does_lower q.before).run (Context.holds_of hq.mark) hq.lower).2.1.frame
      exact (ih h hps hp).trans (hafter.trans hstart)

/-- In a row of parts, each lies where it has been added. -/
theorem Chain.exists_lies {Q : Part → List Chunk → Prop} {d d' : Draft} {ps : List Part}
    {cs : List Chunk} (h : Chain d ps d') (hs : Sound cs d)
    (hadds : ∀ p ∈ ps, ∀ pre, Sound pre p.before → ∃ new, Sound (pre ++ new) p.after ∧ Q p new) :
    ∃ post, Sound (cs ++ post) d' ∧ ∀ p ∈ ps, ∃ pre new, p.Lies (cs ++ post) pre new ∧ Q p new := by
  induction ps generalizing d cs with
  | nil =>
    obtain ⟨queue, rfl⟩ := h
    refine ⟨[], ?_, by simp⟩
    rw [List.append_nil]
    exact { hs with }
  | cons p ps ih =>
    obtain ⟨⟨queue, hbefore⟩, h⟩ := h
    obtain ⟨hp, hps⟩ := List.forall_mem_cons.mp hadds
    have hs₀ : Sound cs p.before := by
      rw [hbefore]
      exact { hs with }
    obtain ⟨new, hs₁, hnew⟩ := hp cs hs₀
    obtain ⟨post, hs', hlies⟩ := ih h hs₁ hps
    refine ⟨new ++ post, by rwa [← List.append_assoc], List.forall_mem_cons.mpr ⟨?_, ?_⟩⟩
    · exact ⟨cs, new, ⟨⟨post, by simp⟩, hs₀, hs₁⟩, hnew⟩
    · rwa [← List.append_assoc]

/-! ### The region of an operation -/

/-- The chunks of `q`, which are code of the part `p`, do what the effect allows. They store at the
end of `p` at most, and code that is put off goes back there. -/
structure Part.Stays (e : Effect) (p q : Part) (new : List Chunk) : Prop where
  within : ∀ c ∈ new, c.Within e
  refers : ∀ short cond l, .branch short cond l ∈ new →
    p.Owns l ∨ q.before.buffer.labels.size ≤ l.index
  stores : ∀ front i link back, new = front ++ .instr i link :: back → i.footprint.store? ≠ none →
    q = p ∧ back = []
  returns : q ≠ p → (∃ front short l, new = front ++ [.branch short none l]) ∧
    ∀ l a, q.after.buffer.labelOffset l = some a → a < q.after.buffer.position

/-- The chunks of the part with those of the code that it has put off. -/
def Part.Comprised (e : Effect) (cs : List Chunk) (parts : List Part) (p : Part)
    (x : Nat × Chunk) : Prop :=
  ∃ q ∈ parts, p.Comprises q ∧ ∃ pre new, q.Lies cs pre new ∧ p.Stays e q new ∧
    x ∈ placed (extent pre) new

/-- Control stays in the code of a part until it gets to the end of the part. -/
theorem Layout.region {ops : List Operation} {paths : List SlowPath} {d d' : Draft}
    {parts : List Part} {p : Part} {e : Effect} {cs : List Chunk} (h : Layout ops paths d parts d')
    (hqueued : ∀ path ∈ paths, ∃ q ∈ parts, q.Enqueues path) (hp : p ∈ parts)
    (hlies : ∀ q ∈ parts, p.Comprises q → ∃ pre new, q.Lies cs pre new ∧ p.Stays e q new) :
    Region e cs d'.buffer.labelOffset (p.Comprised e cs parts) p.after.buffer.position where
  placed := by
    rintro x ⟨q, -, -, pre, new, hq, -, hx⟩
    exact hq.mem_placed hx
  within := by
    rintro x ⟨q, -, -, pre, new, -, hstays, hx⟩
    obtain ⟨front, back, rfl, -⟩ := split_of_placed hx
    exact hstays.within x.2 (by simp)
  next := by
    rintro ⟨a, c⟩ ⟨q, hq, hpq, pre, new, hat, hstays, hx⟩ hbranch
    obtain ⟨c', hc'⟩ | ⟨⟨front, hlast⟩, hend⟩ := next_placed hx
    · exact .inr ⟨c', q, hq, hpq, pre, new, hat, hstays, hc'⟩
    · by_cases hqp : q = p
      · rw [← hqp]
        exact .inl (hend.trans hat.stop_eq.symm)
      · obtain ⟨⟨front', short, l, hreturn⟩, -⟩ := hstays.returns hqp
        have hc := (List.append_inj' (hlast.symm.trans hreturn) rfl).2
        exact absurd (List.singleton_inj.mp hc) (hbranch short l)
  target := by
    rintro ⟨b, c⟩ ⟨q, hq, hpq, pre, new, hq', hstays, hx⟩ short cond l a rfl hl
    have hmem : .branch short cond l ∈ new := by
      obtain ⟨front, back, rfl, -⟩ := split_of_placed hx
      simp
    have hstart : d.buffer.labelOffset l = none := by
      rw [CodeBuffer.reserveLabels_eq_ok h.start, CodeBuffer.labelOffset_withLabels]
      rfl
    have hreserve : BufferOp.runAll [.reserve (labelCount ops)] .empty = .ok () d.buffer :=
      BufferOp.runAll_cons.mpr ⟨_, h.start, rfl⟩
    obtain ⟨ws, hw⟩ := BufferOp.written_run_empty hreserve
    obtain ⟨t, ht, hbind, hle, hafter⟩ := h.chain.exists_binder h.lowered hw hstart hl
    have hpt : p.Comprises t := by
      obtain howns | hown := hstays.refers short cond l hmem
      · exact h.comprises_of_binder hqueued hp ht howns hbind
      · have howns : q.Owns l := ⟨hown, lt_of_branch hq'.after (List.mem_append_right _ hmem)⟩
        obtain rfl | ⟨path, hputs, hsource⟩ := h.comprises_of_binder hqueued hq ht howns hbind
        · exact hpq
        · obtain rfl | ⟨path', -, hslow⟩ := hpq
          · exact .inr ⟨path, hputs, hsource⟩
          · obtain ⟨op, hop, -⟩ := hputs.putsOff
            cases hslow.symm.trans hop
    obtain ⟨pre', new', htlies, htstays⟩ := hlies t ht hpt
    obtain rfl | ⟨c', hc'⟩ := htlies.inside hle hafter
    · by_cases htp : t = p
      · exact .inl (by rw [htp])
      · exact absurd ((htstays.returns htp).2 l _ hafter) (Nat.lt_irrefl _)
    · exact .inr ⟨c', t, ht, hpt, pre', new', htlies, htstays, hc'⟩
  last := by
    rintro ⟨a, c⟩ ⟨q, -, -, pre, new, hat, hstays, hx⟩ i link rfl hstore
    obtain ⟨front, back, rfl, rfl⟩ := split_of_placed hx
    obtain ⟨hqp, rfl⟩ := hstays.stores front i link back rfl hstore
    rw [← hqp, hat.stop_eq]
    simp [Nat.add_assoc]

end MachineCode
