import MachineCode.Proofs.Decoding.Forms
import MachineCode.Proofs.Labels.Written

/-! Runs of the code buffer. A run is any sequence of operations, on any labels and in any order,
that succeeds; when the code is finished afterwards, every reference holds the distance to its
label. -/
namespace MachineCode

open X64 CodeBuffer Piece

/-- The operations on a code buffer that append bytes or change labels. -/
inductive BufferOp where
  | emit (bs : List UInt8)
  | newLabel
  | reserve (count : Nat)
  | rel8 (l : Label)
  | rel32 (l : Label)
  | tableEntry (l : Label) (base : Nat)
  | jmp (l : Label)
  | jcc (cond : Cond) (l : Label)
  | jmpShort (l : Label)
  | jccShort (cond : Cond) (l : Label)
  | bind (l : Label)
  deriving DecidableEq, Repr

namespace BufferOp

def run : BufferOp → BufferStep Unit
  | emit bs => CodeBuffer.emit bs
  | newLabel => modify fun b => b.newLabel.2
  | reserve count => reserveLabels count
  | rel8 l => reference l .rel8
  | rel32 l => reference l .rel32
  | tableEntry l base => reference l (.table base)
  | jmp l => CodeBuffer.jmp l
  | jcc cond l => CodeBuffer.jcc cond l
  | jmpShort l => CodeBuffer.jmpShort l
  | jccShort cond l => CodeBuffer.jccShort cond l
  | bind l => discard (CodeBuffer.bind l)

/-- One operation after the other, up to the first that fails. -/
def runAll (ops : List BufferOp) : BufferStep Unit := forM ops run

/-- The pieces that an operation adds to a buffer. -/
def pieces (b : CodeBuffer) : BufferOp → List Piece
  | emit bs => [.bytes bs]
  | rel8 l => [.ref l .rel8]
  | rel32 l => [.ref l .rel32]
  | tableEntry l base => [.ref l (.table base)]
  | jmp l => b.branchPieces 0xEB [0xE9] l
  | jcc cond l =>
    b.branchPieces (0x70 + UInt8.ofNat cond.code) [0x0F, 0x80 + UInt8.ofNat cond.code] l
  | jmpShort l => [.bytes [0xEB], .ref l .rel8]
  | jccShort cond l => [.bytes [0x70 + UInt8.ofNat cond.code], .ref l .rel8]
  | newLabel | reserve _ | bind _ => []

variable {ps : List Piece} {b b' : CodeBuffer} {ops : List BufferOp}

/-- What one operation does: it adds its pieces, and binds a label only if it is the operation for
that. -/
theorem written_run {op : BufferOp} (h : Written ps b) (hr : op.run b = .ok () b') :
    Written (ps ++ op.pieces b) b' ∧
    (∀ l, b'.labelOffset l = if op = bind l then some b.position else b.labelOffset l) ∧
    ∀ l p, op = bind l → b.labelOffset l = some p → p = b.position := by
  cases op with
  | emit bs =>
    cases hr
    exact ⟨h.emit bs, fun l => by simp; rfl, by simp⟩
  | newLabel =>
    cases Step.modify_eq_ok.mp hr
    rw [newLabel_eq]
    simpa [pieces] using h.withLabels 1
  | reserve count =>
    cases reserveLabels_eq_ok hr
    simpa [pieces] using h.withLabels _
  | rel8 l | rel32 l | tableEntry l base =>
    obtain ⟨hw, hlabels⟩ := h.reference hr
    exact ⟨hw, by simpa using hlabels, by simp⟩
  | jmp l | jcc cond l =>
    obtain ⟨hw, hlabels⟩ := h.branch hr
    exact ⟨hw, by simpa using hlabels, by simp⟩
  | jmpShort l | jccShort cond l =>
    obtain ⟨_, _, ⟨⟩, hr⟩ := Step.bind_eq_ok.mp hr
    obtain ⟨hw, hlabels⟩ := (h.emit _).reference hr
    rw [List.append_assoc] at hw
    exact ⟨hw, fun l => by rw [hlabels]; simp; rfl, by simp⟩
  | bind l =>
    obtain ⟨fresh, hr⟩ := Step.discard_eq_ok.mp hr
    obtain ⟨hw, hlabels, hsame⟩ := h.bind hr
    refine ⟨by simpa [pieces] using hw, fun m => ?_, ?_⟩
    · rw [hlabels]
      simp [eq_comm]
    · rintro m p ⟨⟩ hp
      exact hsame p hp

theorem runAll_append {ops' : List BufferOp} :
    runAll (ops ++ ops') b = .ok () b' ↔
    ∃ c, runAll ops b = .ok () c ∧ runAll ops' c = .ok () b' := by
  rw [runAll, List.forM_append, Step.bind_eq_ok]
  exact ⟨fun ⟨_, c, h⟩ => ⟨c, h⟩, fun ⟨c, h⟩ => ⟨(), c, h⟩⟩

theorem runAll_cons {op : BufferOp} :
    runAll (op :: ops) b = .ok () b' ↔ ∃ c, op.run b = .ok () c ∧ runAll ops c = .ok () b' := by
  rw [runAll, List.forM_cons, Step.bind_eq_ok]
  exact ⟨fun ⟨_, c, h⟩ => ⟨c, h⟩, fun ⟨c, h⟩ => ⟨(), c, h⟩⟩

/-- A run adds pieces, and moves no label that is bound. -/
theorem written_runAll (h : Written ps b) (hr : runAll ops b = .ok () b') :
    ∃ qs, Written (ps ++ qs) b' ∧ Extends b b' := by
  induction ops generalizing ps b with
  | nil =>
    cases hr
    exact ⟨[], by simpa using h, .refl _⟩
  | cons op ops ih =>
    obtain ⟨c, hc, hr⟩ := runAll_cons.mp hr
    obtain ⟨hw, hlabels, hsame⟩ := written_run h hc
    obtain ⟨qs, hw', hext⟩ := ih hw hr
    refine ⟨op.pieces b ++ qs, by simpa using hw', .trans ?_ hext⟩
    intro l p hp
    rw [hlabels]
    by_cases hop : op = bind l
    · rw [if_pos hop, hsame l p hop hp]
    · rwa [if_neg hop]

theorem written_run_empty (hr : runAll ops .empty = .ok () b) : ∃ ps, Written ps b := by
  obtain ⟨ps, hw, -⟩ := written_runAll .empty hr
  exact ⟨ps, hw⟩

/-- The label is bound for the first time at `p`. -/
def FirstBind (ops : List BufferOp) (l : Label) (p : Nat) : Prop :=
  ∃ pre post before, ops = pre ++ bind l :: post ∧ bind l ∉ pre ∧
    runAll pre .empty = .ok () before ∧ before.position = p

/-- A label that no operation binds stays unbound. -/
theorem labelOffset_of_not_mem {l : Label} (h : Written ps b) (hr : runAll ops b = .ok () b')
    (hl : b.labelOffset l = none) (hops : bind l ∉ ops) : b'.labelOffset l = none := by
  induction ops generalizing ps b with
  | nil =>
    cases hr
    exact hl
  | cons op ops ih =>
    obtain ⟨c, hc, hr⟩ := runAll_cons.mp hr
    obtain ⟨hw, hlabels, -⟩ := written_run h hc
    have hop : op ≠ bind l := fun h => hops (by simp [h])
    exact ih hw hr (by rw [hlabels, if_neg hop, hl]) (fun h => hops (by simp [h]))

/-- A label that is bound on the way lies behind the start, and an operation binds it. -/
theorem bind_of_labelOffset {l : Label} {p : Nat} (h : Written ps b) (hr : runAll ops b = .ok () b')
    (hl : b.labelOffset l = none) (hl' : b'.labelOffset l = some p) :
    bind l ∈ ops ∧ b.position ≤ p := by
  induction ops generalizing ps b with
  | nil =>
    cases hr
    cases hl.symm.trans hl'
  | cons op ops ih =>
    obtain ⟨c, hc, hr⟩ := runAll_cons.mp hr
    obtain ⟨hw, hlabels, -⟩ := written_run h hc
    by_cases hop : op = bind l
    · obtain ⟨-, -, hext⟩ := written_runAll hw hr
      cases (hext l b.position ((hlabels l).trans (if_pos hop))).symm.trans hl'
      exact ⟨List.mem_cons.mpr (.inl hop.symm), Nat.le_refl _⟩
    · obtain ⟨hmem, hle⟩ := ih hw hr ((hlabels l).trans ((if_neg hop).trans hl))
      refine ⟨List.mem_cons_of_mem _ hmem, Nat.le_trans ?_ hle⟩
      rw [h.position, hw.position, total_append]
      exact Nat.le_add_right _ _

theorem FirstBind.append {post : List BufferOp} {l : Label} {p : Nat} (h : FirstBind ops l p) :
    FirstBind (ops ++ post) l p := by
  obtain ⟨pre', post', before, rfl, hrest⟩ := h
  exact ⟨pre', post' ++ post, before, by simp, hrest⟩

theorem exists_firstBind {l : Label} (hr : runAll ops .empty = .ok () b) (hmem : bind l ∈ ops) :
    ∃ p, FirstBind ops l p := by
  obtain ⟨pre, post, hops, hpre⟩ := List.eq_append_cons_of_mem hmem
  obtain ⟨before, hbefore, -⟩ := runAll_append.mp (hops ▸ hr)
  exact ⟨before.position, pre, post, before, hops, hpre, hbefore, rfl⟩

/-- A label that is bound keeps its offset. -/
theorem labelOffset_of_bind {pre post : List BufferOp} {before : CodeBuffer} {l : Label}
    (hr : runAll (pre ++ bind l :: post) .empty = .ok () b)
    (hpre : runAll pre .empty = .ok () before) :
    b.labelOffset l = some before.position := by
  obtain ⟨d, hd, hpost⟩ := runAll_append.mp hr
  cases hpre.symm.trans hd
  obtain ⟨c, hc, hpost⟩ := runAll_cons.mp hpost
  obtain ⟨ps, hw⟩ := written_run_empty hpre
  obtain ⟨hw', hlabels, -⟩ := written_run hw hc
  obtain ⟨-, -, hext⟩ := written_runAll hw' hpost
  exact hext l _ (by rw [hlabels, if_pos rfl])

theorem labelOffset_of_firstBind {l : Label} {p : Nat} (hr : runAll ops .empty = .ok () b)
    (h : FirstBind ops l p) : b.labelOffset l = some p := by
  obtain ⟨pre, post, before, rfl, -, hpre, rfl⟩ := h
  exact labelOffset_of_bind hr hpre

theorem firstBind_unique {l : Label} {p q : Nat} (hr : runAll ops .empty = .ok () b)
    (hp : FirstBind ops l p) (hq : FirstBind ops l q) : p = q :=
  Option.some.inj ((labelOffset_of_firstBind hr hp).symm.trans (labelOffset_of_firstBind hr hq))

/-- The offset of a label is where it is bound first. -/
theorem labelOffset_eq_some {l : Label} {p : Nat} (hr : runAll ops .empty = .ok () b) :
    b.labelOffset l = some p ↔ FirstBind ops l p := by
  constructor
  · intro hp
    have hmem : bind l ∈ ops := by
      by_contra hmem
      simp [labelOffset_of_not_mem .empty hr rfl hmem] at hp
    obtain ⟨q, hq⟩ := exists_firstBind hr hmem
    cases hp.symm.trans (labelOffset_of_firstBind hr hq)
    exact hq
  · exact labelOffset_of_firstBind hr

end BufferOp

end MachineCode
