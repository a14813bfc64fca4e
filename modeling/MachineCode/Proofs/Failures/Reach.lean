import MachineCode.Proofs.Effects.Context
import MachineCode.Proofs.Labels.Parts

/-! Short branches that wait for their labels. While the code behind them stays short, binding a
label fills them in without fail. -/
namespace MachineCode

open X64

/-- The error is about what has been written: a label that is bound twice, a short branch that does
not reach, a field outside of its instruction. -/
def Error.isInternal : Error → Bool
  | .redefineLabel .. | .branchOutOfRange .. | .midInstructionRelocation .. => true
  | _ => false

theorem Error.isInternal_of_isRefusal {e : Error}
    (h : e.isRefusal = true) : e.isInternal = false := by
  cases e <;> first | rfl | cases h

namespace CodeBuffer

variable {b b' : CodeBuffer} {l m : Label} {kind : ReferenceKind} {e : Error}

/-! ### References -/

/-- Only a field of one byte can be too small for a branch. -/
theorem internal_field {s : ReferenceSite} {target : Nat} (h : field s target = .error e)
    (he : e.isInternal = true) : s.kind = .rel8 := by
  obtain ⟨offset, kind⟩ := s
  have hword : ∀ v : Int, (do let d ← displacement32 v; return leBytes 4 d.toUInt32.toNat :
      Except Error (List UInt8)) = .error e → e.isInternal = false := by
    intro v h
    obtain h | ⟨d, -, h⟩ := Step.except_bind_eq_error.mp h
    · exact Error.isInternal_of_isRefusal (error_displacement32 h)
    · cases h
  cases kind with
  | rel8 => rfl
  | rel32 | table base =>
    rw [hword _ h] at he
    cases he

theorem error_reserveLabels {count : Nat} (h : reserveLabels count b = .error e b') :
    e.isInternal = false := by
  unfold reserveLabels at h
  split at h <;> cases h
  rfl

/-- A reference fails for a bound label that it does not reach. -/
theorem error_reference (h : reference l kind b = .error e b') (he : e.isInternal = true) :
    kind = .rel8 ∧ b.labelOffset l ≠ none := by
  rw [reference, Step.get_bind] at h
  cases hl : b.labelOffset l with
  | some target =>
    simp only [hl] at h
    cases hf : field ⟨b.position, kind⟩ target with
    | ok bs =>
      rw [hf] at h
      cases h
    | error e' =>
      rw [hf] at h
      cases h
      exact ⟨internal_field hf he, Option.some_ne_none target⟩
  | none =>
    simp only [hl, addSite, bind_assoc] at h
    obtain h | ⟨_, b₁, -, h⟩ := Step.bind_eq_error.mp h
    · rw [error_reserveLabels h] at he
      cases he
    · cases h

/-- A reference to a label that is not bound waits for it. -/
theorem reference_eq_ok (h : reference l kind b = .ok () b') :
    (∀ m, b'.labelOffset m = b.labelOffset m) ∧
    ∀ m, ∀ s ∈ b'.pendingSites m, s ∈ b.pendingSites m ∨ m = l ∧ s = ⟨b.position, kind⟩ := by
  rw [reference, Step.get_bind] at h
  cases hl : b.labelOffset l with
  | some target =>
    simp only [hl] at h
    cases hf : field ⟨b.position, kind⟩ target with
    | ok bs =>
      rw [hf] at h
      cases h
      exact ⟨fun _ => rfl, fun _ _ => .inl⟩
    | error e' =>
      rw [hf] at h
      cases h
  | none =>
    simp only [hl, addSite, bind_assoc] at h
    obtain ⟨_, b₁, hb₁, h⟩ := Step.bind_eq_ok.mp h
    cases reserveLabels_eq_ok hb₁
    rw [Step.modify_bind] at h
    cases h
    obtain ⟨hlabels, hpending⟩ := pendingSites_modify ⟨b.position, kind⟩
      (lt_size_withLabels b l.index) (labelOffset_withLabels.trans hl)
    refine ⟨fun m => (hlabels m).trans labelOffset_withLabels, fun m s hs => ?_⟩
    have hs : s ∈ if m = l then ((b.withLabels _).pendingSites l).push ⟨b.position, kind⟩ else
        (b.withLabels _).pendingSites m := hpending m ▸ hs
    by_cases hm : m = l
    · rw [if_pos hm, pendingSites_withLabels] at hs
      obtain hs | hs := Array.mem_push.mp hs
      · exact .inl (hm ▸ hs)
      · exact .inr ⟨hm, hs⟩
    · rw [if_neg hm, pendingSites_withLabels] at hs
      exact .inl hs

/-! ### Binding -/

/-- Filling in sites changes no label, and fails for a site that does not reach. -/
theorem forM_resolve (sites : List ReferenceSite) (target : Nat) (b : CodeBuffer) :
    (∀ b', sites.forM (resolve · target) b = .ok () b' →
      b'.labels = b.labels ∧ b'.position = b.position) ∧
    ∀ e b', sites.forM (resolve · target) b = .error e b' →
    ∃ s ∈ sites, field s target = .error e := by
  induction sites generalizing b with
  | nil =>
    refine ⟨fun b' h => ?_, fun e b' h => ?_⟩
    · cases h
      exact ⟨rfl, rfl⟩
    · cases h
  | cons s sites ih =>
    refine ⟨fun b' h => ?_, fun e b' h => ?_⟩
    · obtain ⟨_, b₁, h₁, h⟩ := Step.bind_eq_ok.mp h
      obtain ⟨hlabels, hposition⟩ := (ih b₁).1 b' h
      rw [hlabels, hposition]
      change resolve s target b = .ok () b₁ at h₁
      unfold resolve at h₁
      split at h₁ <;> cases h₁
      exact ⟨rfl, by simp [position]⟩
    · obtain h₁ | ⟨_, b₁, -, h⟩ := Step.bind_eq_error.mp h
      · change resolve s target b = .error e b' at h₁
        unfold resolve at h₁
        split at h₁
        · cases h₁
        · rename_i hf
          cases h₁
          exact ⟨s, List.mem_cons_self, hf⟩
      · obtain ⟨s', hs', hf⟩ := (ih b₁).2 e b' h
        exact ⟨s', List.mem_cons_of_mem _ hs', hf⟩

/-- Binding a label: it stands at the position, and nothing waits for it any more. It fails where
the label has been bound elsewhere, and where a short branch does not reach. -/
theorem bind_cases (l : Label) (b : CodeBuffer) :
    (∀ fresh b', bind l b = .ok fresh b' → b'.position = b.position ∧
      (∀ m, b'.labelOffset m = if m = l then some b.position else b.labelOffset m) ∧
      ∀ m, ∀ s ∈ b'.pendingSites m, m ≠ l ∧ s ∈ b.pendingSites m) ∧
    ∀ e b', bind l b = .error e b' → e.isInternal = true →
      (∃ p, b.labelOffset l = some p ∧ p ≠ b.position ∧ e = .redefineLabel l p b.position) ∨
      ∃ s ∈ b.pendingSites l, field s b.position = .error e := by
  cases hreserve : reserveLabels (l.index + 1) b with
  | error e₁ b₁ =>
    rw [CodeBuffer.bind, Step.bind_of_error hreserve]
    refine ⟨fun _ _ h => (by cases h), ?_⟩
    rintro e b' ⟨⟩ he
    rw [error_reserveLabels hreserve] at he
    cases he
  | ok u b₁ =>
    cases reserveLabels_eq_ok hreserve
    rw [CodeBuffer.bind, Step.bind_of_ok hreserve, Step.get_bind]
    have hsize := lt_size_withLabels b l.index
    simp only [← @labelOffset_withLabels b _ (l.index + 1 - b.labels.size),
      ← @pendingSites_withLabels b _ (l.index + 1 - b.labels.size),
      show b.position = (b.withLabels (l.index + 1 - b.labels.size)).position from rfl]
    generalize b.withLabels (l.index + 1 - b.labels.size) = c at hsize ⊢
    cases hs : c.labels[l.index]? with
    | none => simp [hsize] at hs
    | some state =>
      cases state with
      | bound p =>
        have hl : c.labelOffset l = some p := by simp [labelOffset, hs]
        have hnone : c.pendingSites l = #[] := by simp [pendingSites, hs]
        by_cases hp : p = c.position
        · simp only [hp, if_true]
          refine ⟨?_, fun _ _ h => by cases h⟩
          rintro fresh b' ⟨⟩
          refine ⟨rfl, fun m => ?_, fun m s hm => ⟨?_, hm⟩⟩
          · split
            · rename_i hm
              rw [hm, hl, hp]
            · rfl
          · rintro rfl
            simp [hnone] at hm
        · simp only [hp, if_false]
          refine ⟨fun _ _ h => absurd h Step.throw_ne_ok, ?_⟩
          rintro e b' ⟨⟩ -
          exact .inl ⟨p, hl, hp, rfl⟩
      | unbound waiting =>
        dsimp only
        rw [Step.modify_bind]
        have hwaiting : c.pendingSites l = waiting := by simp [pendingSites, hs]
        obtain ⟨hok, herror⟩ := forM_resolve waiting.toList c.position
          { c with labels := c.labels.setIfInBounds l.index (.bound c.position) }
        constructor
        · intro fresh b' h
          obtain ⟨_, b₂, hb₂, h⟩ := Step.bind_eq_ok.mp h
          cases h
          obtain ⟨hlabels, hposition⟩ := hok _ hb₂
          refine ⟨hposition, fun m => ?_, fun m s hm => ?_⟩
          · rw [← labelOffset_set hsize, labelOffset, labelOffset, hlabels]
          · rw [pendingSites, hlabels] at hm
            have hml : m ≠ l := by
              rintro rfl
              simp [hsize] at hm
            rw [← pendingSites_set hml]
            exact ⟨hml, hm⟩
        · intro e b' h he
          obtain h | ⟨_, b₂, -, h⟩ := Step.bind_eq_error.mp h
          · obtain ⟨s, hs, hf⟩ := herror e b' h
            exact .inr ⟨s, hwaiting ▸ Array.mem_toList_iff.mp hs, hf⟩
          · cases h

/-! ### Branches in reach -/

/-- Short branches wait for the labels `ls` only, and the position is at most `n` bytes behind
each. -/
def Near (ls : List Label) (n : Nat) (b : CodeBuffer) : Prop :=
  ∀ l, ∀ s ∈ b.pendingSites l, s.kind = .rel8 →
    l ∈ ls ∧ s.offset + 1 ≤ b.position ∧ b.position ≤ s.offset + 1 + n

variable {ls : List Label} {n k : Nat}

theorem Near.mono {ls' : List Label} {n' : Nat} (h : Near ls n b) (hls : ls ⊆ ls') (hn : n ≤ n') :
    Near ls' n' b := by
  intro l s hs hkind
  obtain ⟨hl, hlow, hhigh⟩ := h l s hs hkind
  exact ⟨hls hl, hlow, by omega⟩

/-- Further code without short branches. -/
theorem Near.advance (h : Near ls n b)
    (hsites : ∀ m, ∀ s ∈ b'.pendingSites m, s.kind = .rel8 → s ∈ b.pendingSites m)
    (hlow : b.position ≤ b'.position)
    (hhigh : b'.position ≤ b.position + k) : Near ls (n + k) b' := by
  intro l s hs hkind
  obtain ⟨hl, hlow', hhigh'⟩ := h l s (hsites l s hs hkind) hkind
  exact ⟨hl, by omega, by omega⟩

theorem Near.reference (h : Near ls n b) (hkind : kind ≠ .rel8)
    (hrun : CodeBuffer.reference l kind b = .ok () b') : Near ls (n + 4) b' := by
  have hposition := position_reference hrun
  have hwidth : kind.width ≤ 4 := by cases kind <;> simp [ReferenceKind.width]
  refine h.advance (fun m s hs hshort => ?_) (by omega) (by omega)
  obtain hs | ⟨-, rfl⟩ := (reference_eq_ok hrun).2 m s hs
  · exact hs
  · exact absurd hshort hkind

/-- A branch takes up to four bytes and its opcode. -/
theorem Near.branch {short : UInt8} {long : List UInt8} (h : Near ls n b) (hlong : long.length ≤ 2)
    (hrun : CodeBuffer.branch short long l b = .ok () b') :
    Near ls (n + 6) b' ∧ ∀ m, b'.labelOffset m = b.labelOffset m := by
  rw [CodeBuffer.branch, Step.get_bind] at hrun
  cases hreach : b.shortReach? l with
  | some d =>
    rw [hreach] at hrun
    cases hrun
    exact ⟨h.advance (fun _ _ hs _ => hs) (by simp) (by simp), fun _ => rfl⟩
  | none =>
    rw [hreach] at hrun
    obtain ⟨_, _, ⟨⟩, hrun⟩ := Step.bind_eq_ok.mp hrun
    have hopcode : Near ls (n + 2) (b.append long) :=
      h.advance (fun _ _ hs _ => hs) (by simp) (by simp [hlong])
    exact ⟨hopcode.reference (by simp) hrun, (reference_eq_ok hrun).1⟩

theorem error_branch {short : UInt8} {long : List UInt8}
    (hrun : CodeBuffer.branch short long l b = .error e b') : e.isInternal = false := by
  rw [CodeBuffer.branch, Step.get_bind] at hrun
  cases hreach : b.shortReach? l with
  | some d =>
    rw [hreach] at hrun
    cases hrun
  | none =>
    rw [hreach] at hrun
    obtain h | ⟨_, b₁, -, h⟩ := Step.bind_eq_error.mp hrun
    · cases h
    · by_contra he
      have := error_reference h (by simpa using he)
      simp at this

/-- A short branch to a label that is not bound. -/
theorem Near.jccShort {cond : Cond} (h : Near ls n b) (hl : l ∈ ls)
    (hrun : CodeBuffer.jccShort cond l b = .ok () b') :
    Near ls (n + 2) b' ∧ ∀ m, b'.labelOffset m = b.labelOffset m := by
  obtain ⟨_, _, ⟨⟩, hrun⟩ := Step.bind_eq_ok.mp hrun
  obtain ⟨hlabels, hsites⟩ := reference_eq_ok hrun
  have hposition : b'.position = b.position + 1 + 1 := by
    rw [position_reference hrun]
    simp [ReferenceKind.width]
  refine ⟨fun m s hs hshort => ?_, hlabels⟩
  obtain hs | ⟨rfl, rfl⟩ := hsites m s hs
  · obtain ⟨hm, hlow, hhigh⟩ := h m s hs hshort
    exact ⟨hm, by omega, by omega⟩
  · refine ⟨hl, ?_, ?_⟩ <;> simp only [position_append, List.length_singleton] <;> omega

theorem error_jccShort {cond : Cond} (hl : b.labelOffset l = none)
    (hrun : CodeBuffer.jccShort cond l b = .error e b') : e.isInternal = false := by
  obtain h | ⟨_, b₁, ⟨⟩, h⟩ := Step.bind_eq_error.mp hrun
  · cases h
  · by_contra he
    exact (error_reference h (by simpa using he)).2 hl

/-- All sites of a label in reach can be filled in. -/
theorem Near.field (h : Near ls n b) (hn : n ≤ 127) {s : ReferenceSite} (hs : s ∈ b.pendingSites l)
    (hf : CodeBuffer.field s b.position = .error e) : e.isInternal = false := by
  by_contra he
  have hkind : s.kind = .rel8 := internal_field hf (by simpa using he)
  obtain ⟨-, hlow, hhigh⟩ := h l s hs hkind
  obtain ⟨d, hd⟩ : ∃ d, int8? ((b.position : Int) - (s.offset + 1)) = some d := by
    unfold int8?
    rw [if_pos (by omega)]
    exact ⟨_, rfl⟩
  obtain ⟨offset, kind⟩ := s
  obtain rfl : kind = .rel8 := hkind
  simp only [CodeBuffer.field, hd] at hf
  cases hf

theorem Near.bind {fresh : Bool} (h : Near ls n b) (hrun : CodeBuffer.bind l b = .ok fresh b') :
    Near (ls.filter (· ≠ l)) n b' := by
  obtain ⟨hposition, -, hsites⟩ := (bind_cases l b).1 fresh b' hrun
  intro m s hs hkind
  obtain ⟨hml, hs⟩ := hsites m s hs
  obtain ⟨hm, hlow, hhigh⟩ := h m s hs hkind
  rw [hposition]
  exact ⟨List.mem_filter.mpr ⟨hm, by simpa using hml⟩, hlow, hhigh⟩

end CodeBuffer

end MachineCode
