import MachineCode.Proofs.Failures.Reach
import MachineCode.Proofs.Labels.Failing
import MachineCode.Proofs.Labels.Layout
import MachineCode.Proofs.Labels.Queue
import MachineCode.Proofs.Labels.Steady

/-! How many labels there are. References, binds and reservations ask for labels to be known; they
do not get more than the limit. Labels that are made new are not asked for, and nothing holds them
to the limit. -/
namespace MachineCode

open X64 CodeBuffer Step

variable {α β : Type}

/-! ### Buffers -/

namespace CodeBuffer

/-- Labels that are bound have numbers below the limit. -/
def BoundBelow (b : CodeBuffer) : Prop := ∀ l p, b.labelOffset l = some p → l.index < labelLimit

/-- There are more labels at most, up to `n` of them, and up to the limit. -/
structure Widens (n : Nat) (b b' : CodeBuffer) : Prop where
  le : b.labels.size ≤ b'.labels.size
  bounded : b'.labels.size ≤ max b.labels.size (min n labelLimit)
  below : b.BoundBelow → b'.BoundBelow

instance (n : Nat) : IsPreorder CodeBuffer (Widens n) where
  refl _ := ⟨Nat.le_refl _, Nat.le_max_left _ _, id⟩
  trans a b c h h' := by
    refine ⟨Nat.le_trans h.le h'.le, Nat.le_trans h'.bounded ?_, h'.below ∘ h.below⟩
    exact Nat.max_le.mpr ⟨h.bounded, Nat.le_max_right _ _⟩

variable {n : Nat} {b b' : CodeBuffer} {l : Label} {kind : ReferenceKind}

theorem widens_of_labelOffset (hsize : b'.labels.size = b.labels.size)
    (hlabels : ∀ l, b'.labelOffset l = b.labelOffset l) : Widens n b b' :=
  ⟨Nat.le_of_eq hsize.symm, hsize ▸ Nat.le_max_left _ _,
    fun h l p hp => h l p ((hlabels l).symm.trans hp)⟩

theorem widens_of_labels (h : b'.labels = b.labels) : Widens n b b' :=
  widens_of_labelOffset (congrArg Array.size h) fun l => by rw [labelOffset, labelOffset, h]

theorem size_withLabels (b : CodeBuffer) (n : Nat) :
    (b.withLabels n).labels.size = b.labels.size + n := by
  simp [withLabels]

/-! Labels are reserved within the limit, or not at all. -/

theorem reserveLabels_of_limit {count : Nat} (h : labelLimit < count) :
    reserveLabels count b = .error (.labelLimit count labelLimit) b := if_pos h

theorem reserveLabels_of_le {count : Nat} (h : count ≤ labelLimit) :
    reserveLabels count b = .ok () (b.withLabels (count - b.labels.size)) :=
  if_neg (Nat.not_lt.mpr h)

theorem bind_of_limit (hl : labelLimit < l.index + 1) :
    CodeBuffer.bind l b = .error (.labelLimit (l.index + 1) labelLimit) b :=
  Step.bind_of_error (reserveLabels_of_limit hl)

theorem along_reserveLabels (count : Nat) : Along (Widens count) (reserveLabels count) := by
  intro b
  obtain h | h := Nat.lt_or_ge labelLimit count
  · rw [final_of_error (reserveLabels_of_limit h)]
    exact refl b
  · rw [final_of_ok (reserveLabels_of_le h)]
    have hsize := size_withLabels b (count - b.labels.size)
    exact ⟨by omega, by omega, fun hb l p hp => hb l p (labelOffset_withLabels.symm.trans hp)⟩

theorem along_emit (bytes : List UInt8) : Along (Widens n) (emit bytes) :=
  fun _ => widens_of_labels rfl

theorem along_reference (l : Label) (kind : ReferenceKind) :
    Along (Widens (l.index + 1)) (reference l kind) := by
  intro b
  cases h : reference l kind b with
  | error e b' =>
    cases reference_eq_error h
    rw [final_of_error h]
    exact refl b
  | ok u b' =>
    rw [final_of_ok h]
    have hlabels := (reference_eq_ok h).1
    rw [reference, Step.get_bind] at h
    cases hl : b.labelOffset l with
    | some target =>
      simp only [hl] at h
      cases hfield : field ⟨b.position, kind⟩ target <;> rw [hfield] at h <;> cases h
      exact widens_of_labels rfl
    | none =>
      simp only [hl, addSite, bind_assoc] at h
      obtain ⟨_, b₁, hb₁, h⟩ := Step.bind_eq_ok.mp h
      have hreserved := final_of_ok hb₁ ▸ along_reserveLabels (l.index + 1) b
      rw [Step.modify_bind] at h
      cases h
      refine ⟨?_, ?_, fun hb m p hp => hb m p ((hlabels m).symm.trans hp)⟩
      · simpa [append] using hreserved.le
      · simpa [append] using hreserved.bounded

theorem along_branch (short : UInt8) (long : List UInt8) (l : Label) :
    Along (Widens (l.index + 1)) (branch short long l) := by
  unfold branch
  refine along_get.bind fun b => ?_
  split
  · exact along_emit _
  · exact (along_emit _).bind fun _ => along_reference l _

theorem along_resolve (site : ReferenceSite) (target : Nat) :
    Along (Widens n) (resolve site target) := by
  intro b
  unfold final resolve
  cases field site target <;> exact widens_of_labels rfl

/-- A label that is bound has been reserved, so that its number is below the limit. -/
theorem along_bind (l : Label) : Along (Widens (l.index + 1)) (CodeBuffer.bind l) := by
  obtain hlimit | hle := Nat.lt_or_ge labelLimit (l.index + 1)
  · intro b
    rw [final_of_error (bind_of_limit hlimit)]
    exact refl b
  · have hset : ∀ target, Along (Widens (l.index + 1)) (modify fun b : CodeBuffer =>
        { b with labels := b.labels.setIfInBounds l.index (.bound target) } :
          BufferStep PUnit) := by
      refine fun target => along_modify fun b => ⟨by simp,
        Nat.le_trans (Nat.le_of_eq Array.size_setIfInBounds) (Nat.le_max_left _ _),
        fun hb m p hp => ?_⟩
      by_cases hm : m.index = l.index
      · exact hm ▸ hle
      · simp only [labelOffset, Array.getElem?_setIfInBounds_ne (Ne.symm hm)] at hp
        exact hb m p hp
    unfold CodeBuffer.bind
    refine (along_reserveLabels _).bind fun _ => along_get.bind fun b => ?_
    split
    · exact along_ite (along_pure _) (along_throw _)
    · exact (hset _).bind fun _ =>
        (along_forM fun site => along_resolve site _).bind fun _ => along_pure _
    · exact along_pure _

theorem labelOffset_of_limit (hb : b.BoundBelow)
    (hl : labelLimit < l.index + 1) : b.labelOffset l = none :=
  Option.eq_none_iff_forall_ne_some.mpr fun p hp => absurd hl (Nat.not_lt.mpr (hb l p hp))

/-- A reference to a label beyond the limit fails before anything is written. -/
theorem reference_of_limit (hb : b.BoundBelow) (hl : labelLimit < l.index + 1) :
    reference l kind b = .error (.labelLimit (l.index + 1) labelLimit) b := by
  rw [reference, Step.get_bind, labelOffset_of_limit hb hl]
  exact Step.bind_of_error (Step.bind_of_error (reserveLabels_of_limit hl))

/-- A branch to such a label has written its opcode. -/
theorem branch_of_limit {short : UInt8} {long : List UInt8} (hb : b.BoundBelow)
    (hl : labelLimit < l.index + 1) :
    branch short long l b = .error (.labelLimit (l.index + 1) labelLimit) (b.append long) := by
  have hnone : b.shortReach? l = none := by
    rw [shortReach?, labelOffset_of_limit hb hl]
    rfl
  rw [branch, Step.get_bind, hnone]
  exact reference_of_limit (b := b.append long) hb hl

end CodeBuffer

namespace BufferOp

variable {b b' : CodeBuffer} {op : BufferOp} {ops : List BufferOp}

/-- The number of labels that the operation asks for. A label that is made is not asked for. -/
def demand : BufferOp → Nat
  | reserve count => count
  | rel8 l | rel32 l | tableEntry l _ | jmp l | jcc _ l | jmpShort l | jccShort _
    l | bind l => l.index + 1
  | emit _ | newLabel => 0

theorem along_run (hop : op ≠ newLabel) : Along (Widens op.demand) op.run := by
  cases op with
  | emit bs => exact along_emit bs
  | newLabel => exact absurd rfl hop
  | reserve count => exact along_reserveLabels count
  | rel8 l | rel32 l | tableEntry l base => exact along_reference l _
  | jmp l | jcc cond l => exact along_branch _ _ l
  | jmpShort l | jccShort cond l => exact (along_emit _).bind fun _ => along_reference l _
  | bind l => exact (CodeBuffer.along_bind l).discard

theorem attempt_eq_final (op : BufferOp) (b : CodeBuffer) : op.attempt b = final op.run b := by
  unfold attempt final
  cases op.run b <;> rfl

/-- Labels that are asked for are made up to the limit. -/
theorem widens_attempt (hop : op ≠ newLabel) : Widens op.demand b (op.attempt b) :=
  attempt_eq_final op b ▸ along_run hop b

theorem size_attempt_newLabel : (newLabel.attempt b).labels.size = b.labels.size + 1 := by
  change (b.labels.push _).size = _
  rw [Array.size_push]

theorem size_le_attempt (op : BufferOp) (b : CodeBuffer) :
    b.labels.size ≤ (op.attempt b).labels.size := by
  by_cases hop : op = newLabel
  · rw [hop, size_attempt_newLabel]
    exact Nat.le_succ _
  · exact (widens_attempt hop).le

theorem boundBelow_attempt (h : b.BoundBelow) (op : BufferOp) : (op.attempt b).BoundBelow := by
  by_cases hop : op = newLabel
  · rw [hop]
    refine fun l p hp => h l p ?_
    change b.newLabel.2.labelOffset l = some p at hp
    rwa [newLabel_eq, labelOffset_withLabels] at hp
  · exact (widens_attempt hop).below h

/-- One operation keeps within the limit, unless it makes a label beyond it. -/
theorem size_attempt_le_iff (h : b.labels.size ≤ labelLimit) (op : BufferOp) :
    (op.attempt b).labels.size ≤ labelLimit ↔ (op = newLabel → b.labels.size < labelLimit) := by
  by_cases hop : op = newLabel
  · rw [hop, size_attempt_newLabel]
    exact ⟨fun h _ => h, fun h => h rfl⟩
  · refine iff_of_true ?_ fun h => absurd h hop
    exact Nat.le_trans (widens_attempt hop).bounded (Nat.max_le.mpr ⟨h, Nat.min_le_right _ _⟩)

/-- The operation fails because of the limit, and leaves all labels as they are. -/
def Refused (op : BufferOp) (b : CodeBuffer) : Prop :=
  ∃ b', op.run b = .error (.labelLimit op.demand labelLimit) b' ∧ b'.labels = b.labels

/-- An operation that asks for more labels than the limit is refused. -/
theorem refused_of_limit (hb : b.BoundBelow) (hop : labelLimit < op.demand) : op.Refused b := by
  cases op with
  | emit bs | newLabel => exact absurd hop (Nat.not_lt_zero _)
  | reserve count => exact ⟨b, reserveLabels_of_limit hop, rfl⟩
  | rel8 l | rel32 l | tableEntry l base => exact ⟨b, reference_of_limit hb hop, rfl⟩
  | jmp l | jcc cond l => exact ⟨_, branch_of_limit hb hop, rfl⟩
  | jmpShort l => exact ⟨_, reference_of_limit (b := b.append [0xEB]) hb hop, rfl⟩
  | jccShort cond l =>
    exact ⟨_, reference_of_limit (b := b.append [0x70 + UInt8.ofNat cond.code]) hb hop, rfl⟩
  | bind l => exact ⟨b, Step.discard_of_error (bind_of_limit hop), rfl⟩

/-- Wherever a label is made, the limit has not been reached. -/
def Room : List BufferOp → CodeBuffer → Prop
  | [], _ => True
  | op :: ops, b => (op = newLabel → b.labels.size < labelLimit) ∧ Room ops (op.attempt b)

theorem size_le_attemptAll (ops : List BufferOp) (b : CodeBuffer) :
    b.labels.size ≤ (attemptAll ops b).labels.size := by
  induction ops generalizing b with
  | nil => exact Nat.le_refl _
  | cons op ops ih => exact Nat.le_trans (size_le_attempt op b) (ih _)

theorem boundBelow_attemptAll (h : b.BoundBelow) (ops : List BufferOp) :
    (attemptAll ops b).BoundBelow := by
  induction ops generalizing b with
  | nil => exact h
  | cons op ops ih => exact ih (boundBelow_attempt h op)

/-- A run keeps within the limit when all labels that it makes do, and only then. -/
theorem size_attemptAll_le_iff (h : b.labels.size ≤ labelLimit) (ops : List BufferOp) :
    (attemptAll ops b).labels.size ≤ labelLimit ↔ Room ops b := by
  induction ops generalizing b with
  | nil => exact iff_of_true h trivial
  | cons op ops ih =>
    have hstep := size_attempt_le_iff h op
    refine ⟨fun hall => ?_, fun ⟨hop, hroom⟩ => (ih (hstep.mpr hop)).mpr hroom⟩
    have hop := Nat.le_trans (size_le_attemptAll ops (op.attempt b)) hall
    exact ⟨hstep.mp hop, (ih hop).mp hall⟩

end BufferOp

end MachineCode
