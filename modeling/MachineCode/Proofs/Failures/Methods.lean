import MachineCode.Proofs.Failures.Blocks
import MachineCode.Proofs.Labels.Hygiene

/-! Internal failures of methods. A method fails because of what it has written itself only if it
binds a label at two positions: one that operations place, or one of a template. -/
namespace MachineCode

open X64 Lower

/-! ### Bindings -/

/-- The source is code of a template: these micro-operations, from this draft on. -/
inductive Source.Expands : Source → Draft → Expansion → List MicroOp → Draft → Prop
  | fast (t : Template) (operands : List Operand) (info infoAfter : Option DebugInfo) (d : Draft) :
    Expands (.operation (.template t operands info infoAfter)) d
      ⟨t, operands, (List.range' d.buffer.labels.size t.labelCount).map Label.mk, info, infoAfter⟩
      t.fastPath { d with current := "xir", buffer := (d.buffer.newLabels t.labelCount).2 }
  | slow (x : Expansion) (d : Draft) :
    Expands (.slowPath (.template x)) d x (x.template.slowPath.getD []) { d with current := "xir" }

/-- The lowering of a method gets to a source, with this draft. -/
inductive Reaches (constants : List DataConstant) (ops : List Operation) (d : Draft) :
    Source → Draft → Prop
  | front {pre post : List Source} {s : Source} {e : Draft}
    (hsources : .prologue :: ops.map .operation = pre ++ s :: post)
    (hrun : (preparation constants ops >>= fun _ => pre.forM Source.lower) d = .ok () e) :
    Reaches constants ops d s e
  | back {pre post : List SlowPath} {path : SlowPath} {d₂ e : Draft}
    (hfront : (preparation constants ops >>= fun _ =>
      (Source.prologue :: ops.map .operation).forM Source.lower) d = .ok () d₂)
    (hpaths : d₂.pending.toList = pre ++ path :: post)
    (hrun : pre.forM slowPath { d₂ with pending := #[] } = .ok () e) :
    Reaches constants ops d (.slowPath path) e

/-- An operation of the method places the label at `p`. -/
def Places (constants : List DataConstant) (ops : List Operation) (d : Draft) (l : Label)
    (p : Nat) : Prop :=
  ∃ e, Reaches constants ops d (.operation (.label l)) e ∧ e.buffer.position = p

/-- The source binds the template's label at `p`. -/
def Source.BindsAt (s : Source) (d : Draft) (x : Expansion) (l : Label) (p : Nat) : Prop :=
  ∃ micros start pre k post d', s.Expands d x micros start ∧ micros = pre ++ .bind k :: post ∧
    x.labels[k]? = some l ∧ pre.forM (microOp x) start = .ok () d' ∧ d'.buffer.position = p

/-- The code of a template, in place or put off, binds its label at `p`. -/
def Binds (constants : List DataConstant) (ops : List Operation) (d : Draft) (x : Expansion)
    (l : Label) (p : Nat) : Prop :=
  ∃ s e, Reaches constants ops d s e ∧ s.BindsAt e x l p

/-! ### Steps -/

variable {placed : Label → Nat → Prop} {bound : Expansion → Label → Nat → Prop} {d d' : Draft}
  {lent : Label → Prop} {n : Nat} {paths : List SlowPath} {b : CodeBuffer}

/-- If the error is internal, it is about a label with two positions. -/
def Rebound (placed : Label → Nat → Prop) (bound : Expansion → Label → Nat → Prop)
    (err : Error) : Prop :=
  err.isInternal = true → ∃ l p q, err = .redefineLabel l p q ∧ p ≠ q ∧
    (placed l p ∧ placed l q ∨ ∃ x, bound x l p ∧ bound x l q)

theorem rebound_of_external {err : Error} (h : err.isInternal = false) : Rebound placed bound err :=
  fun he => absurd (h.symm.trans he) Bool.false_ne_true

/-- Between sources nothing is open. -/
theorem held_of (hmark : d.buffer.mark = none) (hnear : d.buffer.Near [] 0) :
    Held (Context.of d) d.buffer.labelOffset lent [] [] 0 d :=
  ⟨Context.holds_of hmark, fun _ _ _ => rfl, nofun, nofun, hnear⟩

theorem Held.trans {lent' : Label → Prop} {d'' : Draft}
    (h : Held (Context.of d) d.buffer.labelOffset lent [] [] 0 d')
    (h' : Held (Context.of d') d'.buffer.labelOffset lent' [] [] 0 d'')
    (hlent : ∀ l, lent' l → lent l) :
    Held (Context.of d) d.buffer.labelOffset lent [] [] 0 d'' where
  holds := ⟨h'.holds.frame.trans h.holds.frame, h'.holds.target.trans h.holds.target,
    Nat.le_trans h.holds.labels h'.holds.labels, h'.holds.mark⟩
  same l hl hl' :=
    (h'.same l (Nat.lt_of_lt_of_le hl h.holds.labels) fun hl'' => hl' (hlent l hl'')).trans
    (h.same l hl hl')
  own := nofun
  unbound := nofun
  near := h'.near

/-- Binding a label where no short branches wait. -/
theorem bind_outcome {l : Label} (hmark : d.buffer.mark = none) (hnear : d.buffer.Near [] 0) :
    (∀ d', Lower.bind l d = .ok () d' →
      Held (Context.of d) d.buffer.labelOffset (· = l) [] [] 0 d' ∧
        d'.buffer.labelOffset l = some d.buffer.position) ∧
    ∀ err d', Lower.bind l d = .error err d' → err.isInternal = true →
      ∃ p, d.buffer.labelOffset l = some p ∧ p ≠ d.buffer.position ∧
        err = .redefineLabel l p d.buffer.position := by
  obtain ⟨hok, herror⟩ := CodeBuffer.bind_cases l d.buffer
  refine ⟨fun d' hrun => ?_, fun err d' hrun he => ?_⟩
  · obtain ⟨fresh, d₁, h₁, hrun⟩ := Step.bind_eq_ok.mp hrun
    obtain ⟨b, hb, rfl⟩ := onBuffer_eq_ok.mp h₁
    obtain ⟨-, hlabels, -⟩ := hok fresh b hb
    have hgrows := CodeBuffer.grows_bind l
    have hheld : Held (Context.of d) d.buffer.labelOffset (· = l) [] [] 0 { d with buffer := b } :=
      ⟨⟨rfl, rfl, hgrows.labels _ _ _ hb, (hgrows.mark _ _ _ hb).trans hmark⟩,
        fun m _ hm => (hlabels m).trans (if_neg hm), nofun, nofun, hnear.bind hb⟩
    have hbound : b.labelOffset l = some d.buffer.position := (hlabels l).trans (if_pos rfl)
    cases fresh with
    | true =>
      obtain ⟨p, _, ⟨⟩, hrun⟩ := Step.bind_eq_ok.mp hrun
      cases Step.modify_eq_ok.mp hrun
      exact ⟨⟨⟨rfl, rfl, hheld.holds.labels, hheld.holds.mark⟩, hheld.same,
        nofun, nofun, hheld.near⟩, hbound⟩
    | false =>
      cases hrun
      exact ⟨hheld, hbound⟩
  · obtain hbind | ⟨fresh, d₁, -, hrun⟩ := Step.bind_eq_error.mp hrun
    · obtain ⟨b, hb⟩ : ∃ b, CodeBuffer.bind l d.buffer = .error err b := by
        unfold onBuffer at hbind
        dsimp only at hbind
        split at hbind
        · cases hbind
        · rename_i b hb
          cases hbind
          exact ⟨b, hb⟩
      obtain hredefine | ⟨s, hs, hf⟩ := herror err b hb he
      · exact hredefine
      · exact absurd (hnear.field (Nat.zero_le _) hs hf) (by simp [he])
    · cases fresh <;> cases hrun

/-- A template label is there, or it is not handled. -/
theorem label_cases (x : Expansion) (k : Nat) :
    (∃ l, x.labels[k]? = some l ∧ x.label k = pure l) ∨ ∃ detail, x.label k = unhandled detail := by
  unfold Expansion.label
  cases x.labels[k]? with
  | some l => exact .inl ⟨l, rfl, rfl⟩
  | none => exact .inr ⟨_, rfl⟩

/-- The labels of a template are bound by its micro-operations only. -/
theorem microOps_outcome {x : Expansion} {micros : List MicroOp} (hmark : d.buffer.mark = none)
    (hnear : d.buffer.Near [] 0) (hlabels : ∀ l ∈ x.labels, l.index < d.buffer.labels.size)
    (hbefore : ∀ l ∈ x.labels, ∀ p, d.buffer.labelOffset l = some p → bound x l p)
    (hbinds : ∀ pre k post l e, micros = pre ++ .bind k :: post → x.labels[k]? = some l →
      pre.forM (microOp x) d = .ok () e → bound x l e.buffer.position) :
    (∀ d', micros.forM (microOp x) d = .ok () d' →
      Held (Context.of d) d.buffer.labelOffset (· ∈ x.labels) [] [] 0 d' ∧
        ∀ l ∈ x.labels, ∀ p, d'.buffer.labelOffset l = some p → bound x l p) ∧
    ∀ err d', micros.forM (microOp x) d = .error err d' → Rebound placed bound err := by
  refine Step.forM_induction (P := fun _ e =>
    Held (Context.of d) d.buffer.labelOffset (· ∈ x.labels) [] [] 0 e ∧
      ∀ l ∈ x.labels, ∀ p, e.buffer.labelOffset l = some p → bound x l p)
    ⟨held_of hmark hnear, hbefore⟩ fun pre micro rest e hmicros hpre h => ?_
  obtain ⟨hheld, hbound⟩ := h
  by_cases hmicro : ∃ k, micro = .bind k
  · obtain ⟨k, rfl⟩ := hmicro
    have hmicro : microOp x (.bind k) = x.label k >>= Lower.bind := rfl
    rw [hmicro]
    obtain ⟨l, hk, hlabel⟩ | ⟨detail, hlabel⟩ := label_cases x k
    · have hl : l ∈ x.labels := List.mem_of_getElem? hk
      have hposition : bound x l e.buffer.position := hbinds pre k rest l e hmicros hk hpre
      obtain ⟨hok, herror⟩ := bind_outcome (l := l) hheld.holds.mark hheld.near
      rw [hlabel, pure_bind]
      refine ⟨fun e' hrun => ?_, fun err e' hrun he => ?_⟩
      · obtain ⟨hstep, hlast⟩ := hok e' hrun
        refine ⟨hheld.trans hstep (by rintro m rfl; exact hl), fun m hm p hp => ?_⟩
        by_cases hml : m = l
        · subst hml
          cases hp.symm.trans hlast
          exact hposition
        · rw [hstep.same m (Nat.lt_of_lt_of_le (hlabels m hm) hheld.holds.labels) hml] at hp
          exact hbound m hm p hp
      · obtain ⟨p, hp, hne, rfl⟩ := herror err e' hrun he
        exact ⟨l, p, _, rfl, hne, .inr ⟨x, hbound l hl p hp, hposition⟩⟩
    · have hfails : Tame (fun _ => True) (unhandled detail >>= Lower.bind) fun _ _ => False :=
        (tame_unhandled (q := fun _ _ => False) detail).bind fun _ _ => False.elim
      rw [hlabel]
      exact ⟨fun e' hrun => ((hfails e trivial).1 () e' hrun).elim,
        fun err e' hrun => rebound_of_external ((hfails e trivial).2 err e' hrun)⟩
  · have hdiscreet :
        Discreet (Context.of e) e.buffer.labelOffset (fun _ => False) (microOp x micro) :=
      discreet_microOp x fun k hk => hmicro ⟨k, hk⟩
    have hstep := hdiscreet e (held_of hheld.holds.mark hheld.near)
    refine ⟨fun e' hrun => ?_, fun err e' hrun => rebound_of_external (hstep.2 err e' hrun)⟩
    have hheld' := hstep.1 () e' hrun
    refine ⟨hheld.trans hheld' (fun _ => False.elim), fun l hl p hp => ?_⟩
    rw [hheld'.same l (Nat.lt_of_lt_of_le (hlabels l hl) hheld.holds.labels) not_false] at hp
    exact hbound l hl p hp

/-! ### The state between sources -/

/-- The labels of code that is put off: a fix-up is still to be entered, and a template has bound
its labels itself where they are bound. -/
def SlowPath.Awaits (bound : Expansion → Label → Nat → Prop) (b : CodeBuffer) : SlowPath → Prop
  | .convertFixup entry _ _ _ _ _ => b.labelOffset entry = none
  | .template x => ∀ l ∈ x.labels, ∀ p, b.labelOffset l = some p → bound x l p

/-- Between two sources: no short branch waits, one of the first `n` labels stands where it has been
placed, and code is put off with labels of its own. -/
structure Orderly (placed : Label → Nat → Prop) (bound : Expansion → Label → Nat → Prop) (n : Nat)
    (paths : List SlowPath) (b : CodeBuffer) : Prop where
  mark : b.mark = none
  near : b.Near [] 0
  labels : n ≤ b.labels.size
  placed : ∀ l p, l.index < n → b.labelOffset l = some p → placed l p
  inside : ∀ path ∈ paths, ∀ l ∈ path.labels, n ≤ l.index ∧ l.index < b.labels.size
  awaits : ∀ path ∈ paths, path.Awaits bound b
  apart : paths.Pairwise fun path path' => ∀ l ∈ path.labels, l ∉ path'.labels

namespace Orderly

/-- Code that spares the labels of `paths`. -/
theorem spare (h : Orderly placed bound n paths d.buffer)
    (hd' : Held (Context.of d) d.buffer.labelOffset lent [] [] 0 d')
    (hplaced : ∀ l p, l.index < n → lent l → d'.buffer.labelOffset l = some p → placed l p)
    (hpaths : ∀ path ∈ paths, ∀ l ∈ path.labels, ¬ lent l) :
    Orderly placed bound n paths d'.buffer where
  mark := hd'.holds.mark
  near := hd'.near
  labels := Nat.le_trans h.labels hd'.holds.labels
  placed l p hl hp := by
    by_cases hlent : lent l
    · exact hplaced l p hl hlent hp
    · exact h.placed l p hl (hd'.same l (Nat.lt_of_lt_of_le hl h.labels) hlent ▸ hp)
  inside path hpath l hl :=
    (h.inside path hpath l hl).imp_right fun hlt => Nat.lt_of_lt_of_le hlt hd'.holds.labels
  awaits path hpath := by
    have hpath' := h.awaits path hpath
    cases path with
    | convertFixup entry resume src dst double long =>
      have hentry : entry ∈ (SlowPath.convertFixup entry resume src dst double long).labels := by
        simp [SlowPath.labels]
      exact (hd'.same entry (h.inside _ hpath entry hentry).2
        (hpaths _ hpath entry hentry)).trans hpath'
    | template x =>
      intro l hl p hp
      rw [hd'.same l (h.inside _ hpath l hl).2 (hpaths _ hpath l hl)] at hp
      exact hpath' l hl p hp
  apart := h.apart

theorem tail {path : SlowPath} (h : Orderly placed bound n (path :: paths) b) :
    Orderly placed bound n paths b where
  mark := h.mark
  near := h.near
  labels := h.labels
  placed := h.placed
  inside path' hpath' := h.inside path' (List.mem_cons_of_mem _ hpath')
  awaits path' hpath' := h.awaits path' (List.mem_cons_of_mem _ hpath')
  apart := h.apart.of_cons

/-- Code is put off with labels behind those of all other code. -/
theorem push {path : SlowPath} {m : Nat} (h : Orderly placed bound n paths b) (hm : n ≤ m)
    (hbefore : ∀ path' ∈ paths, ∀ l ∈ path'.labels, l.index < m)
    (hlabels : ∀ l ∈ path.labels, m ≤ l.index ∧ l.index < b.labels.size)
    (hawaits : path.Awaits bound b) : Orderly placed bound n (paths ++ [path]) b where
  mark := h.mark
  near := h.near
  labels := h.labels
  placed := h.placed
  inside := List.forall_mem_append.mpr ⟨h.inside, List.forall_mem_singleton.mpr fun l hl =>
    (hlabels l hl).imp_left (Nat.le_trans hm)⟩
  awaits := List.forall_mem_append.mpr ⟨h.awaits, List.forall_mem_singleton.mpr hawaits⟩
  apart := by
    refine List.pairwise_append.mpr ⟨h.apart, List.pairwise_singleton _ _,
      fun path' hpath' path'' hx => ?_⟩
    obtain rfl := List.mem_singleton.mp hx
    exact fun l hl hl' => absurd (hbefore path' hpath' l hl) (Nat.not_lt.mpr (hlabels l hl').1)

theorem held (h : Orderly placed bound n paths d.buffer) :
    Held (Context.of d) d.buffer.labelOffset lent [] [] 0 d := held_of h.mark h.near

/-- A step that keeps its labels to itself. -/
theorem discreet (h : Orderly placed bound n paths d.buffer) {x : Lower Unit}
    (hx : Discreet (Context.of d) d.buffer.labelOffset (fun _ => False) x) :
    (∀ d', x d = .ok () d' → Orderly placed bound n paths d'.buffer) ∧
      ∀ err d', x d = .error err d' → Rebound placed bound err :=
  ⟨fun d' hrun => h.spare ((hx d h.held).1 () d' hrun) (fun _ _ _ => False.elim)
    fun _ _ _ _ => not_false, fun err d' hrun => rebound_of_external ((hx d h.held).2 err d' hrun)⟩

end Orderly

/-! ### Operations -/

/-- An operation fails if its code does. -/
theorem error_operation {op : Operation} {err : Error} (hrun : operation op d = .error err d') :
    lower op { d with current := op.name } = .error err d' := by
  have hrun : (lower op >>= fun _ => do
      let stop ← position
      modify fun e => { e with journal := e.journal.operation op.name d.buffer.position stop })
      { d with current := op.name } = .error err d' := hrun
  obtain hlower | ⟨_, d₁, -, hrun⟩ := Step.bind_eq_error.mp hrun
  · exact hlower
  · cases hrun

/-- A template binds its labels, and no others. -/
theorem template_outcome {t : Template} {operands : List Operand}
    {info infoAfter : Option DebugInfo} (h : Orderly placed bound n paths d.buffer)
    (hbinds : ∀ x l p, (Source.operation (.template t operands info infoAfter)).BindsAt d x l p →
      bound x l p) :
    let op : Operation := .template t operands info infoAfter
    (∀ d', lower op { d with current := op.name } = .ok () d' →
      Orderly placed bound n paths d'.buffer ∧
      ∀ path, op.PutsOff d.buffer.labels.size path → path.Awaits bound d'.buffer) ∧
    ∀ err d', lower op { d with current := op.name } = .error err d' →
      Rebound placed bound err := by
  intro op
  let start : Draft := { d with current := "xir", buffer := (d.buffer.newLabels t.labelCount).2 }
  let x : Expansion :=
    ⟨t, operands, (List.range' d.buffer.labels.size t.labelCount).map Label.mk, info, infoAfter⟩
  have hsize : start.buffer.labels.size = d.buffer.labels.size + t.labelCount := by
    simp [start, CodeBuffer.newLabels]
  have hwith : start.buffer = d.buffer.withLabels t.labelCount := rfl
  have hsame : ∀ l, start.buffer.labelOffset l = d.buffer.labelOffset l := fun l => by
    rw [hwith, CodeBuffer.labelOffset_withLabels]
  have hinside :
      ∀ l ∈ x.labels, d.buffer.labels.size ≤ l.index ∧ l.index < start.buffer.labels.size := by
    intro l hl
    obtain ⟨k, hk, rfl⟩ := List.mem_map.mp hl
    exact hsize ▸ List.mem_range'_1.mp hk
  have hnear : start.buffer.Near [] 0 := fun l s hs => by
    rw [hwith, CodeBuffer.pendingSites_withLabels] at hs
    exact h.near l s hs
  have hstart : Held (Context.of d) d.buffer.labelOffset (· ∈ x.labels) [] [] 0 start :=
    ⟨⟨rfl, rfl, hsize ▸ Nat.le_add_right _ _, h.mark⟩, fun l _ _ => hsame l,
      fun _ h => (by cases h), fun _ h => (by cases h), hnear⟩
  have hunbound : ∀ l ∈ x.labels, ∀ p, start.buffer.labelOffset l = some p → bound x l p := by
    intro l hl p hp
    exact absurd (BufferOp.lt_of_labelOffset (hsame l ▸ hp)) (Nat.not_lt.mpr (hinside l hl).1)
  have houtcome : (∀ d', t.fastPath.forM (microOp x) start = .ok () d' → _) ∧
      ∀ err d', t.fastPath.forM (microOp x) start = .error err d' → Rebound placed bound err :=
    microOps_outcome h.mark hnear (fun l hl => (hinside l hl).2) hunbound
      fun pre k post l e hmicros hk hpre =>
      hbinds x l _ ⟨_, _, pre, k, post, e, .fast t operands info infoAfter d,
        hmicros, hk, hpre, rfl⟩
  obtain ⟨hok, herror⟩ := houtcome
  refine ⟨fun d' hrun => ?_, fun err d' hrun => ?_⟩
  · change template t operands info infoAfter { d with current := "xir" } = .ok () d' at hrun
    obtain ⟨d₁, hfast, hd'⟩ := template_run hrun
    obtain ⟨hheld, hbound⟩ := hok d₁ hfast
    have hbuffer : d'.buffer = d₁.buffer := by
      rw [hd']
      split <;> rfl
    rw [hbuffer]
    refine ⟨h.spare (hstart.trans hheld fun _ => id) (fun l p hl hlent => ?_)
      fun path hpath l hl hlent => ?_, ?_⟩
    · exact absurd hl (Nat.not_lt.mpr (Nat.le_trans h.labels (hinside l hlent).1))
    · exact absurd (h.inside path hpath l hl).2 (Nat.not_lt.mpr (hinside l hlent).1)
    · rintro (_ | ⟨t', operands', labels', info', infoAfter'⟩) ⟨hop, hlabels⟩
      · obtain ⟨f, src, dst, hop⟩ := hop
        exact absurd hop (by simp [op])
      obtain ⟨rfl, rfl, rfl, rfl⟩ := Operation.template.inj hop
      change labels' = (List.range' d.buffer.labels.size t.labelCount).map Label.mk at hlabels
      subst hlabels
      exact hbound
  · have hrun : (t.fastPath.forM (microOp x) >>= fun _ =>
        if t.slowPath.isSome then enqueue (.template x) else pure ()) start = .error err d' := hrun
    obtain hfast | ⟨_, d₁, -, hrun⟩ := Step.bind_eq_error.mp hrun
    · exact herror err d' hfast
    · split at hrun <;> cases hrun

theorem Operation.not_putsOff {op : Operation} {path : SlowPath}
    (hconvert : ∀ f src dst, op ≠ .convert f src dst)
    (htemplate : ∀ t operands info infoAfter, op ≠ .template t operands info infoAfter) :
    ¬ op.PutsOff n path := by
  cases path with
  | convertFixup entry resume src dst double long =>
    rintro ⟨⟨f, src, dst, hop⟩, -⟩
    exact hconvert f src dst hop
  | template x => exact fun h => htemplate _ _ _ _ h.1

/-- An operation fails because of a label only if it binds one again, and leaves the labels of other
code alone. -/
theorem operation_outcome {op : Operation} (h : Orderly placed bound n d.pending.toList d.buffer)
    (hlabels : ∀ l, op = .label l → l.index < n)
    (hplaced : ∀ l, op = .label l → placed l d.buffer.position)
    (hbinds : ∀ x l p, (Source.operation op).BindsAt d x l p → bound x l p) :
    (∀ d', operation op d = .ok () d' → Orderly placed bound n d'.pending.toList d'.buffer) ∧
    ∀ err d', operation op d = .error err d' → Rebound placed bound err := by
  let started : Draft := { d with current := op.name }
  -- What is left to show: the labels of the code that is put off are in order.
  have hlower : (∀ d₁, lower op started = .ok () d₁ →
        Orderly placed bound n d.pending.toList d₁.buffer ∧
        ∀ path, op.PutsOff d.buffer.labels.size path →
          d₁.pending = d.pending.push path → path.Awaits bound d₁.buffer) ∧
      ∀ err d₁, lower op started = .error err d₁ → Rebound placed bound err := by
    have hplain : (∀ l, op ≠ .label l) → (∀ path, ¬ op.PutsOff d.buffer.labels.size path) →
        (∀ d₁, lower op started = .ok () d₁ → Orderly placed bound n d.pending.toList d₁.buffer ∧
          ∀ path, op.PutsOff d.buffer.labels.size path →
            d₁.pending = d.pending.push path → path.Awaits bound d₁.buffer) ∧
        ∀ err d₁, lower op started = .error err d₁ → Rebound placed bound err := fun hl hputs =>
      (Orderly.discreet (d := started) h (discreet_lower hl fun t operands info infoAfter hop =>
        hputs (.template ⟨t, operands,
          (List.range' d.buffer.labels.size t.labelCount).map Label.mk, info,
          infoAfter⟩) ⟨hop, rfl⟩)).imp_left
        fun hok d₁ hrun => ⟨hok d₁ hrun, fun path hpath => absurd hpath (hputs path)⟩
    cases op with
    | label l =>
      have hl := hlabels l rfl
      obtain ⟨hok, herror⟩ := bind_outcome (d := started) (l := l) h.mark h.near
      refine ⟨fun d₁ hrun => ⟨?_, ?_⟩, fun err d₁ hrun he => ?_⟩
      · obtain ⟨hheld, hlast⟩ := hok d₁ hrun
        refine Orderly.spare (d := started) h hheld ?_ ?_
        · rintro m p - rfl hp
          cases hp.symm.trans hlast
          exact hplaced m rfl
        · rintro path hpath m hm rfl
          exact absurd hl (Nat.not_lt.mpr (h.inside path hpath m hm).1)
      · intro path hpath
        exact absurd hpath (Operation.not_putsOff (by simp) (by simp))
      · obtain ⟨p, hp, hne, rfl⟩ := herror err d₁ hrun he
        exact ⟨l, p, _, rfl, hne, .inl ⟨h.placed l p hl hp, hplaced l rfl⟩⟩
    | convert f src dst =>
      have hheld :
          Held (Context.of started) started.buffer.labelOffset (fun _ => False) [] [] 0 started :=
        Orderly.held h
      have hconvert : (∀ d₁, convert f src dst started = .ok () d₁ →
          Held (Context.of started) started.buffer.labelOffset (fun _ => False) [] [] 0 d₁ ∧
            ∀ entry resume s g double long, d₁.pending =
              d.pending.push (.convertFixup entry resume s g double long) →
              d₁.buffer.labelOffset entry = none) ∧
          ∀ err d₁, convert f src dst started = .error err d₁ → err.isInternal = false := by
        obtain ⟨double, long, -, htruncate⟩ | ⟨-, hnothing⟩ := convert_cases f src dst
        · rw [htruncate]
          refine (tame_truncate started hheld).imp_left fun hok d₁ hrun => ?_
          obtain ⟨hheld₁, entry, resume, s, g, hback, hnone⟩ := hok () d₁ hrun
          refine ⟨hheld₁, fun entry' resume' s' g' double' long' hpush => ?_⟩
          rw [hpush, Array.back?_push] at hback
          cases hback
          exact hnone
        · refine (discreet_convert f src dst started hheld).imp_left fun hok d₁ hrun =>
            ⟨hok () d₁ hrun, fun _ _ _ _ _ _ hpush => ?_⟩
          have hsize := congrArg Array.size ((hnothing started d₁ h.mark hrun).symm.trans hpush)
          simp [started] at hsize
      refine ⟨fun d₁ hrun => ⟨?_, ?_⟩,
        fun err d₁ hrun => rebound_of_external (hconvert.2 err d₁ hrun)⟩
      · exact Orderly.spare (d := started) h (hconvert.1 d₁ hrun).1 (fun _ _ _ => False.elim)
          fun _ _ _ _ => not_false
      · intro path hpath hpush
        cases path with
        | convertFixup entry resume s g double long =>
          exact (hconvert.1 d₁ hrun).2 _ _ _ _ _ _ hpush
        | template x => cases hpath.1
    | template t operands info infoAfter =>
      obtain ⟨hok, herror⟩ := template_outcome h hbinds
      exact ⟨fun d₁ hrun =>
        ⟨(hok d₁ hrun).1, fun path hpath _ => (hok d₁ hrun).2 path hpath⟩, herror⟩
    | _ => exact hplain (by simp) fun _ => Operation.not_putsOff (by simp) (by simp)
  refine ⟨fun d' hrun => ?_, fun err d' hrun => hlower.2 err d' (error_operation hrun)⟩
  obtain ⟨d₁, hd₁, hbuffer, hpending⟩ := operation_eq_ok hrun
  obtain ⟨horderly, hpath⟩ := hlower.1 d₁ hd₁
  rw [hbuffer]
  obtain hnothing | ⟨path, hputs, hpush, howns⟩ := putsOff_of_operation h.mark hrun
  · rw [hnothing]
    exact horderly
  · rw [hpush, Array.toList_push]
    exact horderly.push h.labels (fun path' hpath' l hl => (h.inside path' hpath' l hl).2)
      (fun l hl => hbuffer ▸ howns l hl) (hpath path hputs (hpending.symm.trans hpush))

/-! ### Code that is put off -/

/-- The code itself, without the record of it. -/
def SlowPath.code : SlowPath → Lower Unit
  | .convertFixup entry resume src dst double long =>
    Lower.convertFixup entry resume src dst double long
  | .template x => templateSlowPath x

def SlowPath.operationName : SlowPath → String
  | .convertFixup .. => "convert"
  | .template _ => "xir"

theorem slowPath_eq (path : SlowPath) : ∃ f : Nat → Nat → Journal → Journal,
    slowPath path = (do
      let start ← position
      setCurrent path.operationName
      path.code
      let stop ← position
      modify fun d => { d with journal := f start stop d.journal }) := by
  cases path with
  | convertFixup entry resume src dst double long =>
    refine ⟨fun start stop journal => journal.slowPath "convert" start stop, ?_⟩
    simp only [slowPath, pure_bind, SlowPath.operationName, SlowPath.code]
  | template x =>
    refine ⟨fun start stop journal => journal.slowPath x.template.name start stop, ?_⟩
    simp only [slowPath, pure_bind, SlowPath.operationName, SlowPath.code]

theorem slowPath_cases {path : SlowPath} :
    (∀ d', slowPath path d = .ok () d' → ∃ d₁ journal,
      path.code { d with current := path.operationName } = .ok () d₁ ∧
      d' = { d₁ with journal := journal }) ∧
    ∀ err d', slowPath path d = .error err d' →
      path.code { d with current := path.operationName } = .error err d' := by
  obtain ⟨f, heq⟩ := slowPath_eq path
  have hrun : slowPath path d = (path.code >>= fun _ => do
      let stop ← position
      modify fun d' => { d' with journal := f d.buffer.position stop d'.journal })
        { d with current := path.operationName } := by
    rw [heq]
    rfl
  rw [hrun]
  refine ⟨fun d' h => ?_, fun err d' h => ?_⟩
  · obtain ⟨_, d₁, hcode, h⟩ := Step.bind_eq_ok.mp h
    cases h
    exact ⟨d₁, _, hcode, rfl⟩
  · obtain hcode | ⟨_, d₁, -, h⟩ := Step.bind_eq_error.mp h
    · exact hcode
    · cases h

/-- Code that is put off, likewise. -/
theorem slowPath_outcome {path : SlowPath} (h : Orderly placed bound n (path :: paths) d.buffer)
    (hbinds : ∀ x l p, (Source.slowPath path).BindsAt d x l p → bound x l p) :
    (∀ d', slowPath path d = .ok () d' → Orderly placed bound n paths d'.buffer) ∧
    ∀ err d', slowPath path d = .error err d' → Rebound placed bound err := by
  let started : Draft := { d with current := path.operationName }
  -- The labels of this code are not those of other code.
  have hspare :
      ∀ d₁, Held (Context.of started) started.buffer.labelOffset (· ∈ path.labels) [] [] 0 d₁ →
      Orderly placed bound n paths d₁.buffer := fun d₁ hd₁ =>
    Orderly.spare (d := started) h.tail hd₁
      (fun l p hl hlent => absurd hl (Nat.not_lt.mpr (h.inside path (by simp) l hlent).1))
      fun path' hpath' l hl hlent => (List.pairwise_cons.mp h.apart).1 path' hpath' l hlent hl
  have hcode : (∀ d₁, path.code started = .ok () d₁ → Orderly placed bound n paths d₁.buffer) ∧
      ∀ err d₁, path.code started = .error err d₁ → Rebound placed bound err := by
    cases path with
    | convertFixup entry resume src dst double long =>
      have hentry : entry ∈ (SlowPath.convertFixup entry resume src dst double long).labels := by
        simp [SlowPath.labels]
      have hstart : Held (Context.of started) started.buffer.labelOffset
          (· ∈ (SlowPath.convertFixup entry resume src dst double long).labels)
            [entry] [] 0 started :=
        ⟨Context.holds_of h.mark, fun _ _ _ => rfl, List.forall_mem_singleton.mpr (.inr hentry),
          List.forall_mem_singleton.mpr ⟨(h.inside _ List.mem_cons_self entry hentry).2,
            h.awaits _ List.mem_cons_self⟩, h.near⟩
      have hfixup : Tame (Held (Context.of started) started.buffer.labelOffset
          (· ∈ (SlowPath.convertFixup entry resume src dst double long).labels) [entry] [] 0)
          (convertFixup entry resume src dst double long) fun _ =>
            Held (Context.of started) started.buffer.labelOffset
              (· ∈ (SlowPath.convertFixup entry resume src dst double long).labels) [] [] 0 :=
        tame_convertFixup
      exact ⟨fun d₁ hrun => hspare d₁ ((hfixup started hstart).1 () d₁ hrun),
        fun err d₁ hrun => rebound_of_external ((hfixup started hstart).2 err d₁ hrun)⟩
    | template x =>
      have houtcome :
          (∀ d', (x.template.slowPath.getD []).forM (microOp x) started = .ok () d' → _) ∧
          ∀ err d', (x.template.slowPath.getD []).forM (microOp x) started = .error err d' →
            Rebound placed bound err :=
        microOps_outcome h.mark h.near (fun l hl => (h.inside _ List.mem_cons_self l hl).2)
          (h.awaits _ List.mem_cons_self) fun pre k post l e hmicros hk hpre =>
            hbinds x l _ ⟨_, _, pre, k, post, e, .slow x d, hmicros, hk, hpre, rfl⟩
      obtain ⟨hok, herror⟩ := houtcome
      have hnops :
          Tame (Held (Context.of started) started.buffer.labelOffset (· ∈ x.labels) [] [] 0)
          (emitBytes (nops 1)) fun _ =>
            Held (Context.of started) started.buffer.labelOffset (· ∈ x.labels) [] [] 0 :=
        discreet_does (does_nops 1)
      refine ⟨fun d₁ hrun => ?_, fun err d₁ hrun => ?_⟩
      · obtain ⟨_, d₂, h₂, hrun⟩ := Step.bind_eq_ok.mp hrun
        exact hspare d₁ ((hnops d₂ (hok d₂ h₂).1).1 () d₁ hrun)
      · obtain h₂ | ⟨_, d₂, h₂, hrun⟩ := Step.bind_eq_error.mp hrun
        · exact herror err d₁ h₂
        · exact rebound_of_external ((hnops d₂ (hok d₂ h₂).1).2 err d₁ hrun)
  refine ⟨fun d' hrun => ?_, fun err d' hrun => hcode.2 err d' (slowPath_cases.2 err d' hrun)⟩
  obtain ⟨d₁, journal, hd₁, rfl⟩ := slowPath_cases.1 d' hrun
  exact hcode.1 d₁ hd₁

/-! ### Methods -/

variable {target : Target} {frame : Frame} {name : String} {id : Option UInt32}
  {constants : List DataConstant} {ops : List Operation}

/-- In front of the prologue nothing has been bound. -/
theorem orderly_fresh (n : Nat) : Orderly placed bound n [] (CodeBuffer.empty.withLabels n) where
  mark := rfl
  near l s hs := by
    rw [CodeBuffer.pendingSites_withLabels] at hs
    exact absurd hs (Array.not_mem_empty s)
  labels := by simp [CodeBuffer.withLabels, CodeBuffer.empty]
  placed l p _ hp := by
    rw [CodeBuffer.labelOffset_withLabels] at hp
    cases hp
  inside := nofun
  awaits := nofun
  apart := .nil

theorem preparation_outcome (hd : Draft.start target frame name id = .ok d) :
    (∀ d₁, preparation constants ops d = .ok () d₁ →
      Orderly placed bound (labelCount ops) d₁.pending.toList d₁.buffer) ∧
    ∀ err d₁, preparation constants ops d = .error err d₁ → Rebound placed bound err := by
  refine ⟨fun d₁ hrun => ?_, fun err d₁ hrun => ?_⟩
  · obtain ⟨hreserved, hpending⟩ := preparation_eq_ok hd hrun
    have hbuffer : d₁.buffer = CodeBuffer.empty.withLabels (labelCount ops) :=
      CodeBuffer.reserveLabels_eq_ok hreserved
    rw [hbuffer, hpending]
    exact orderly_fresh _
  · obtain ⟨journal, rfl⟩ := Draft.start_eq_ok hd
    obtain hconstants | ⟨_, d₂, -, hreserve⟩ := Step.bind_eq_error.mp hrun
    · exact (Orderly.discreet (orderly_fresh 0) (discreet_does (does_addConstants constants))).2 err
        d₁ hconstants
    · exact rebound_of_external
        (sober_onBuffer (fun _ _ _ => CodeBuffer.error_reserveLabels) d₂ err d₁ hreserve)

/-- The prologue and the operations, up to any of them. -/
theorem front_outcome {d₁ : Draft} (hprepare : preparation constants ops d = .ok () d₁)
    (h : Orderly (Places constants ops d) (Binds constants ops d) (labelCount ops) d₁.pending.toList
      d₁.buffer) :
    (∀ d₂, (Source.prologue :: ops.map .operation).forM Source.lower d₁ = .ok () d₂ →
      Orderly (Places constants ops d) (Binds constants ops d) (labelCount ops) d₂.pending.toList
        d₂.buffer) ∧
    ∀ err d₂, (Source.prologue :: ops.map .operation).forM Source.lower d₁ = .error err d₂ →
      Rebound (Places constants ops d) (Binds constants ops d) err := by
  refine Step.forM_induction (P := fun _ (e : Draft) =>
    Orderly (Places constants ops d) (Binds constants ops d) (labelCount ops) e.pending.toList
      e.buffer) h fun pre s rest e hsources hpre h => ?_
  have hreaches : Reaches constants ops d s e :=
    .front hsources ((Step.bind_of_ok hprepare).trans hpre)
  cases s with
  | prologue =>
    obtain ⟨hok, herror⟩ :=
      h.discreet (discreet_does (does_prologue unlabelled_open fun _ _ => trivial))
    refine ⟨fun e' hrun => ?_, herror⟩
    have hsame : e'.pending = e.pending := (Source.does_lower .prologue e).pending_eq
      (fun _ ⟨_, hop⟩ => absurd hop (by simp)) (Context.holds_of h.mark) hrun
    rw [hsame]
    exact hok e' hrun
  | operation op =>
    have hop : op ∈ ops := by
      have hmem : Source.operation op ∈ Source.prologue :: ops.map .operation := by simp [hsources]
      simpa using hmem
    refine operation_outcome h (fun l hl => lt_labelCount hop (by simp [hl, Operation.labels])) ?_
      fun x l p hbinds => ⟨_, e, hreaches, hbinds⟩
    rintro l rfl
    exact ⟨e, hreaches, rfl⟩
  | slowPath path =>
    have hmem : Source.slowPath path ∈ Source.prologue :: ops.map .operation := by simp [hsources]
    simp at hmem

/-- The code that is put off, up to any of it. -/
theorem back_outcome {d₂ : Draft} (hfront : (preparation constants ops >>= fun _ =>
      (Source.prologue :: ops.map .operation).forM Source.lower) d = .ok () d₂)
    (h : Orderly (Places constants ops d) (Binds constants ops d) (labelCount ops) d₂.pending.toList
      d₂.buffer) {err : Error} {d₃ : Draft} (hrun : slowPaths d₂ = .error err d₃) :
    Rebound (Places constants ops d) (Binds constants ops d) err := by
  have hrun : d₂.pending.toList.forM slowPath { d₂ with pending := #[] } = .error err d₃ := hrun
  exact (Step.forM_induction (s := { d₂ with pending := #[] }) (P := fun rest (e : Draft) =>
      Orderly (Places constants ops d) (Binds constants ops d) (labelCount ops) rest e.buffer) h
    fun pre path rest e hpaths hpre h => slowPath_outcome h fun x l p hbinds =>
      ⟨_, e, .back hfront hpaths hpre, hbinds⟩).2 err d₃ hrun

/-- A method fails because of what it has written itself only if it binds a label at two positions.
Short branches reach their labels, and fields lie in their instructions. -/
theorem internal_of_method (hd : Draft.start target frame name id = .ok d) {err : Error}
    (hrun : method constants ops d = .error err d') :
    (∀ site target displacement, err ≠ .branchOutOfRange site target displacement) ∧
    (∀ offset mark, err ≠ .midInstructionRelocation offset mark) ∧
    ∀ l p q, err = .redefineLabel l p q → p ≠ q ∧
      (Places constants ops d l p ∧ Places constants ops d l q ∨
        ∃ x, Binds constants ops d x l p ∧ Binds constants ops d x l q) := by
  have hrebound : Rebound (Places constants ops d) (Binds constants ops d) err := by
    rw [method_eq, body_eq] at hrun
    obtain hbody | ⟨_, d₄, -, hcompletion⟩ := Step.bind_eq_error.mp hrun
    · obtain hprepare | ⟨_, d₁, hprepare, hbody⟩ := Step.bind_eq_error.mp hbody
      · exact (preparation_outcome hd).2 err d' hprepare
      · obtain ⟨hok, herror⟩ := front_outcome hprepare ((preparation_outcome hd).1 d₁ hprepare)
        obtain hfront | ⟨_, d₂, hfront, hbody⟩ := Step.bind_eq_error.mp hbody
        · exact herror err d' hfront
        · obtain hslow | ⟨_, d₃, hslow, hagain⟩ := Step.bind_eq_error.mp hbody
          · exact back_outcome ((Step.bind_of_ok hprepare).trans hfront) (hok d₂ hfront) hslow
          · -- Nothing is left for the second time.
            obtain ⟨-, -, hpending, -⟩ := parted_slowPaths (hok d₂ hfront).mark hslow
            have hagain :
                d₃.pending.toList.forM slowPath { d₃ with pending := #[] } = .error err d' := hagain
            rw [hpending] at hagain
            cases hagain
    · obtain ⟨m, d'', hok, -⟩ | ⟨l, hunbound⟩ := completion_cases d₄
      · cases hok.symm.trans hcompletion
      · cases hunbound.symm.trans hcompletion
        exact rebound_of_external rfl
  refine ⟨?_, ?_, ?_⟩
  · rintro site target displacement rfl
    obtain ⟨l, p, q, herr, -⟩ := hrebound rfl
    cases herr
  · rintro offset mark rfl
    obtain ⟨l, p, q, herr, -⟩ := hrebound rfl
    cases herr
  · rintro l p q rfl
    obtain ⟨l, p, q, ⟨⟩, h⟩ := hrebound rfl
    exact h

/-- A label that stands in front of an instruction and behind it. -/
theorem internal_of_method_around :
    let around : List Operation := [.label ⟨0⟩, .pause, .label ⟨0⟩]
    let journal := (Journal.start "around" none []).log (.compiling "around" none 0 0)
    let d : Draft :=
      ⟨⟨Options.standard, ⟨true, true⟩, 4096⟩, .empty, .empty, .empty, .empty, #[],
        journal, "prologue"⟩
    Draft.start d.target .empty "around" none = .ok d ∧
      ∃ l p q d', method [] around d = .error (.redefineLabel l p q) d' ∧ p ≠ q ∧
        (Places [] around d l p ∧ Places [] around d l q ∨
          ∃ x, Binds [] around d x l p ∧ Binds [] around d x l q) := by
  intro around journal d
  have hd : Draft.start d.target .empty "around" none = .ok d := rfl
  have herror : (method [] around d matches .error (.redefineLabel ..) _) = true := by
    decide +kernel
  refine ⟨hd, ?_⟩
  cases hm : method [] around d with
  | ok m d' => simp [hm] at herror
  | error err d' =>
    cases err with
    | redefineLabel l p q => exact ⟨l, p, q, d', rfl, (internal_of_method hd hm).2.2 l p q rfl⟩
    | _ => simp [hm] at herror

end MachineCode
