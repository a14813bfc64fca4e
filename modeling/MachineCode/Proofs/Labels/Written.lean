import MachineCode.Proofs.Labels.Pieces
import MachineCode.Proofs.Steps
import MachineCode.X64.Branch

/-! The invariant of a code buffer. Its bytes are those of a sequence of pieces at the current
offsets of the labels, and the sites that wait for an unbound label are all of its fields. Every
step of the buffer keeps the invariant and says which pieces it adds. -/
namespace MachineCode

open CodeBuffer Piece

/-- The buffer holds the pieces. -/
structure Written (ps : List Piece) (b : CodeBuffer) : Prop where
  code : b.code.toList = render b.labelOffset 0 ps
  pending : ∀ l, b.labelOffset l = none → (b.pendingSites l).toList = sites l 0 ps
  inRange : ∀ l target, b.labelOffset l = some target →
    ∀ s ∈ sites l 0 ps, ∃ bs, field s target = .ok bs

/-- Bound labels stay where they are. -/
def Extends (b b' : CodeBuffer) : Prop :=
  ∀ l p, b.labelOffset l = some p → b'.labelOffset l = some p

theorem Extends.refl (b : CodeBuffer) : Extends b b := fun _ _ h => h

theorem Extends.trans {a b c : CodeBuffer} (h : Extends a b) (h' : Extends b c) : Extends a c :=
  fun l p hp => h' l p (h l p hp)

namespace Written

variable {ps : List Piece} {b b' : CodeBuffer}

theorem position (h : Written ps b) : b.position = total ps := by
  rw [CodeBuffer.position, ← Array.length_toList, h.code, length_render]

theorem empty : Written [] .empty where
  code := rfl
  pending _ _ := rfl
  inRange _ _ _ _ hs := by simp [sites] at hs

/-- Only the code and what is known of the labels count. -/
theorem congr (h : Written ps b) (hcode : b'.code = b.code)
    (hlabels : ∀ l, b'.labelOffset l = b.labelOffset l)
    (hpending : ∀ l, b'.pendingSites l = b.pendingSites l) : Written ps b' where
  code := by rw [hcode, h.code, funext hlabels]
  pending l hl := by rw [hpending, h.pending l (by rw [← hlabels, hl])]
  inRange l target hl := h.inRange l target (by rw [← hlabels, hl])

theorem emit (h : Written ps b) (bs : List UInt8) : Written (ps ++ [.bytes bs]) (b.append bs) where
  code := by
    rw [toList_append, h.code, render_append]
    simp [render]
    rfl
  pending l hl := by
    rw [sites_append, ← h.pending l hl]
    simp [sites]
    rfl
  inRange l target hl s hs := by
    rw [sites_append] at hs
    exact h.inRange l target hl s (by simpa [sites] using hs)

/-- The mark of the buffer does not count. -/
theorem emit_congr {bs : List UInt8} (h : Written ps b) (hcode : b'.code = (b.append bs).code)
    (hlabels : b'.labels = b.labels) : Written (ps ++ [.bytes bs]) b' :=
  (h.emit bs).congr hcode (fun l => by simp only [labelOffset, hlabels]; rfl)
    fun l => by simp only [pendingSites, hlabels]; rfl

/-- Bytes that are emitted at once may be seen as several pieces. -/
theorem emit_flatten (h : Written ps b) (bss : List (List UInt8)) :
    Written (ps ++ bss.map .bytes) (b.append bss.flatten) := by
  induction bss generalizing ps b with
  | nil => simpa [append] using h
  | cons bs bss ih =>
    have hsplit : b.append (bs ++ bss.flatten) = (b.append bs).append bss.flatten := by
      simp only [append, CodeBuffer.mk.injEq, and_true]
      apply Array.ext'
      simp
    rw [List.flatten_cons, hsplit]
    simpa using ih (h.emit bs)

end Written

namespace CodeBuffer

variable {b b' : CodeBuffer} {l m : Label} {n : Nat}

/-- New labels that no reference names. -/
def withLabels (b : CodeBuffer) (n : Nat) : CodeBuffer :=
  { b with labels := b.labels ++ Array.replicate n (.unbound #[]) }

@[simp] theorem labelOffset_withLabels : (b.withLabels n).labelOffset l = b.labelOffset l := by
  simp only [labelOffset, withLabels, Array.getElem?_append, Array.getElem?_replicate]
  by_cases h : l.index < b.labels.size
  · simp [h]
  · rw [Array.getElem?_eq_none (Nat.le_of_not_lt h)]
    simp only [h, if_false]
    split <;> simp_all

@[simp] theorem pendingSites_withLabels : (b.withLabels n).pendingSites l = b.pendingSites l := by
  simp only [pendingSites, withLabels, Array.getElem?_append, Array.getElem?_replicate]
  by_cases h : l.index < b.labels.size
  · simp [h]
  · rw [Array.getElem?_eq_none (Nat.le_of_not_lt h)]
    simp only [h, if_false]
    split <;> simp_all

theorem newLabel_eq (b : CodeBuffer) : b.newLabel = (⟨b.labels.size⟩, b.withLabels 1) := by
  simp [newLabel, withLabels]

theorem reserveLabels_eq_ok {count : Nat} (h : reserveLabels count b = .ok () b') :
    b' = b.withLabels (count - b.labels.size) := by
  simp only [reserveLabels] at h
  split at h <;> cases h
  rfl

/-- A reserved label is known. -/
theorem lt_size_withLabels (b : CodeBuffer) (n : Nat) :
    n < (b.withLabels (n + 1 - b.labels.size)).labels.size := by
  simp only [withLabels, Array.size_append, Array.size_replicate]
  omega

/-- The state after a site of the label has been added. -/
theorem pendingSites_modify (site : ReferenceSite) (hl : l.index < b.labels.size)
    (hnone : b.labelOffset l = none) :
    let labels := b.labels.modify l.index fun
      | .unbound sites => .unbound (sites.push site)
      | .bound p => .bound p
    (∀ m, ({ b with labels } : CodeBuffer).labelOffset m = b.labelOffset m) ∧
    ∀ m, ({ b with labels } : CodeBuffer).pendingSites m =
      if m = l then (b.pendingSites l).push site else b.pendingSites m := by
  intro labels
  have hstate : ∃ sites, b.labels[l.index]? = some (.unbound sites) := by
    rw [Array.getElem?_eq_getElem hl]
    simp only [labelOffset, Array.getElem?_eq_getElem hl] at hnone
    cases hs : b.labels[l.index] with
    | unbound sites => exact ⟨sites, rfl⟩
    | bound p => simp [hs] at hnone
  obtain ⟨sites, hsites⟩ := hstate
  constructor
  · intro m
    simp only [labelOffset, labels, Array.getElem?_modify]
    by_cases hm : l.index = m.index
    · rw [if_pos hm, ← hm, hsites]
      rfl
    · rw [if_neg hm]
  · intro m
    simp only [pendingSites, labels, Array.getElem?_modify]
    by_cases hm : m = l
    · simp [hm, hsites]
    · have hne : l.index ≠ m.index := fun h => hm (by cases m; cases l; simp_all)
      simp [hm, hne]

end CodeBuffer

namespace Written

variable {ps : List Piece} {b b' : CodeBuffer} {l : Label} {kind : ReferenceKind}

theorem withLabels (h : Written ps b) (n : Nat) : Written ps (b.withLabels n) :=
  h.congr rfl (fun _ => labelOffset_withLabels) (fun _ => pendingSites_withLabels)

/-- What a step has to do that adds one field. -/
theorem snoc_ref (h : Written ps b)
    (hcode : b'.code.toList = b.code.toList ++ fieldBytes ⟨b.position, kind⟩ (b.labelOffset l))
    (hlabels : ∀ m, b'.labelOffset m = b.labelOffset m)
    (hpending : ∀ m, b.labelOffset m = none → (b'.pendingSites m).toList =
      (b.pendingSites m).toList ++ if l = m then [⟨b.position, kind⟩] else [])
    (hrange : ∀ target, b.labelOffset l = some target →
      ∃ bs, field ⟨b.position, kind⟩ target = .ok bs) : Written (ps ++ [.ref l kind]) b' where
  code := by
    rw [hcode, h.code, render_append, funext hlabels, h.position]
    simp [render]
  pending m hm := by
    rw [hlabels] at hm
    rw [hpending m hm, h.pending m hm, sites_append, h.position]
    simp [sites]
  inRange m target hm s hs := by
    rw [hlabels] at hm
    simp only [sites_append, List.mem_append, Nat.zero_add, ← h.position, sites,
      List.append_nil] at hs
    obtain hs | hs := hs
    · exact h.inRange m target hm s hs
    · by_cases hlm : l = m
      · simp only [hlm, if_true, List.mem_singleton] at hs
        rw [hs]
        exact hrange target (hlm ▸ hm)
      · simp [hlm] at hs

/-- The field of a bound label is written at once. -/
theorem snoc_bound {target : Nat} {bs : List UInt8} (h : Written ps b)
    (hl : b.labelOffset l = some target) (hf : field ⟨b.position, kind⟩ target = .ok bs) :
    Written (ps ++ [.ref l kind]) (b.append bs) := by
  refine h.snoc_ref ?_ (fun _ => rfl) (fun m hm => ?_) (fun t ht => ?_)
  · simp [hl, fieldBytes, hf]
  · have hlm : l ≠ m := by
      rintro rfl
      simp [hl] at hm
    simp only [hlm, if_false, List.append_nil]
    rfl
  · cases hl.symm.trans ht
    exact ⟨bs, hf⟩

/-- A reference adds its field, and binds no label. -/
theorem reference (h : Written ps b) (hr : reference l kind b = .ok () b') :
    Written (ps ++ [.ref l kind]) b' ∧ ∀ m, b'.labelOffset m = b.labelOffset m := by
  rw [CodeBuffer.reference, Step.get_bind] at hr
  cases hl : b.labelOffset l with
  | some target =>
    simp only [hl] at hr
    cases hf : field ⟨b.position, kind⟩ target with
    | error e =>
      rw [hf] at hr
      exact absurd hr Step.throw_ne_ok
    | ok bs =>
      rw [hf] at hr
      cases hr
      exact ⟨h.snoc_bound hl hf, fun _ => rfl⟩
  | none =>
    simp only [hl, addSite, bind_assoc] at hr
    obtain ⟨_, b₁, hb₁, hr⟩ := Step.bind_eq_ok.mp hr
    cases reserveLabels_eq_ok hb₁
    rw [Step.modify_bind] at hr
    cases hr
    obtain ⟨hlabels, hpending⟩ := pendingSites_modify ⟨b.position, kind⟩
      (lt_size_withLabels b l.index) (labelOffset_withLabels.trans hl)
    have hlabels' : ∀ m, _ = b.labelOffset m := fun m => (hlabels m).trans labelOffset_withLabels
    refine ⟨h.snoc_ref ?_ hlabels' ?_ (by simp [hl]), hlabels'⟩
    · simp [hl, fieldBytes]
      rfl
    · intro m hm
      apply (congrArg Array.toList (hpending m)).trans
      by_cases hml : m = l
      · simp [hml]
      · simp [hml, Ne.symm hml]

/-- References one after the other. -/
theorem references {targets : List Label} (h : Written ps b)
    (hr : targets.forM (CodeBuffer.reference · kind) b = .ok () b') :
    Written (ps ++ targets.map (.ref · kind)) b' ∧ ∀ m, b'.labelOffset m = b.labelOffset m := by
  induction targets generalizing ps b with
  | nil =>
    cases hr
    simpa using h
  | cons l targets ih =>
    obtain ⟨_, b₁, hb₁, hr⟩ := Step.bind_eq_ok.mp hr
    obtain ⟨hw₁, hl₁⟩ := h.reference hb₁
    obtain ⟨hw, hl⟩ := ih hw₁ hr
    exact ⟨by simpa using hw, fun m => (hl m).trans (hl₁ m)⟩

end Written

namespace CodeBuffer

open Piece

variable {b b' : CodeBuffer} {l : Label}

/-- Filling in the sites of a label that is bound to `target` renders the pieces anew. The pieces
stand behind other bytes, so that the sites can be filled in one by one. -/
theorem resolve_sites {env env' : Label → Option Nat} {target : Nat} (hl : env l = none)
    (hl' : env' l = some target) (henv : ∀ m, m ≠ l → env' m = env m) {ps : List Piece}
    {before : List UInt8} (hcode : b.code.toList = before ++ render env before.length ps)
    (h : (sites l before.length ps).forM (resolve · target) b = .ok () b') :
    b'.code.toList = before ++ render env' before.length ps ∧ b'.labels = b.labels ∧
    ∀ s ∈ sites l before.length ps, ∃ bs, field s target = .ok bs := by
  induction ps generalizing before b with
  | nil =>
    cases h
    exact ⟨hcode, rfl, by simp [sites]⟩
  | cons p ps ih =>
    cases p with
    | bytes bs =>
      have hcode' : b.code.toList = (before ++ bs) ++ render env (before ++ bs).length ps := by
        rw [hcode, render, List.append_assoc, List.length_append]
      have h' : (sites l (before ++ bs).length ps).forM (resolve · target) b = .ok () b' := by
        rwa [List.length_append]
      have := ih hcode' h'
      simpa [render, sites] using this
    | ref m kind =>
      -- The field in front is read as bytes that stand already; those of `l` are filled in first.
      have step : ∀ b₁ : CodeBuffer,
          b₁.code.toList = before ++ (fieldBytes ⟨before.length, kind⟩ (env' m) ++
            render env (before.length + kind.width) ps) →
          (sites l (before.length + kind.width) ps).forM (resolve · target) b₁ = .ok () b' →
          b'.code.toList = before ++ render env' before.length (ref m kind :: ps) ∧
          b'.labels = b₁.labels ∧
          ∀ s ∈ sites l (before.length + kind.width) ps, ∃ bs, field s target = .ok bs := by
        intro b₁ hcode₁ h₁
        have hlen : (before ++ fieldBytes ⟨before.length, kind⟩ (env' m)).length =
            before.length + kind.width := by simp
        rw [← List.append_assoc, ← hlen] at hcode₁
        rw [← hlen] at h₁
        obtain ⟨hcode', hrest⟩ := ih hcode₁ h₁
        rw [hlen] at hcode' hrest
        exact ⟨by rw [hcode', render, List.append_assoc], hrest⟩
      by_cases hm : m = l
      · subst hm
        simp only [sites, if_true, List.cons_append, List.nil_append] at h ⊢
        obtain ⟨_, b₁, hb₁, h⟩ := Step.bind_eq_ok.mp h
        simp only [resolve] at hb₁
        cases hf : field ⟨before.length, kind⟩ target with
        | error e =>
          rw [hf] at hb₁
          cases hb₁
        | ok bs =>
          rw [hf] at hb₁
          cases hb₁
          have hbytes : fieldBytes ⟨before.length, kind⟩ (env' m) = bs := by
            simp [fieldBytes, hl', hf]
          obtain ⟨hcode', hlabels, hrange⟩ := step _ (by
            rw [hbytes]
            exact toList_overwrite hcode (by rw [length_fieldBytes, length_field hf])) h
          refine ⟨hcode', hlabels, ?_⟩
          intro s hs
          obtain rfl | hs := List.mem_cons.mp hs
          · exact ⟨bs, hf⟩
          · exact hrange s hs
      · simp only [sites, hm, if_false, List.nil_append] at h ⊢
        exact step b (by rw [hcode, render, henv m hm]) h

/-- What binding changes for the labels. -/
theorem labelOffset_set {target : Nat} (hl : l.index < b.labels.size) (m : Label) :
    ({ b with labels := b.labels.setIfInBounds l.index (.bound target) } :
      CodeBuffer).labelOffset m =
      if m = l then some target else b.labelOffset m := by
  simp only [labelOffset, Array.getElem?_setIfInBounds]
  by_cases hm : m = l
  · simp [hm, hl]
  · have hne : l.index ≠ m.index := fun h => hm (by cases m; cases l; simp_all)
    simp [hm, hne]

theorem pendingSites_set {target : Nat} {m : Label} (hm : m ≠ l) :
    ({ b with labels := b.labels.setIfInBounds l.index (.bound target) } :
      CodeBuffer).pendingSites m =
      b.pendingSites m := by
  have hne : l.index ≠ m.index := fun h => hm (by cases m; cases l; simp_all)
  simp [pendingSites, hne]

end CodeBuffer

namespace Written

variable {ps : List Piece} {b b' : CodeBuffer} {l : Label}

/-- An unbound label is bound at the current position, and its sites are filled in. -/
theorem bind_unbound {waiting : Array ReferenceSite} (h : Written ps b)
    (hs : b.labels[l.index]? = some (.unbound waiting))
    (hr : waiting.toList.forM (resolve · b.position)
      { b with labels := b.labels.setIfInBounds l.index (.bound b.position) } = .ok () b') :
    Written ps b' ∧ ∀ m, b'.labelOffset m = if m = l then some b.position else b.labelOffset m := by
  have hl : b.labelOffset l = none := by simp [labelOffset, hs]
  have hwaiting : waiting.toList = sites l 0 ps := by
    rw [← h.pending l hl]
    simp [CodeBuffer.pendingSites, hs]
  rw [hwaiting] at hr
  have hset : ∀ m, _ = if m = l then some b.position else b.labelOffset m :=
    labelOffset_set (Array.getElem?_eq_some_iff.mp hs).1
  have hcode₀ : ({ b with
      labels := b.labels.setIfInBounds l.index (.bound b.position) } : CodeBuffer).code.toList =
      [] ++ render b.labelOffset ([] : List UInt8).length ps := h.code
  obtain ⟨hcode, hlab, hrange⟩ := resolve_sites hl ((hset l).trans (if_pos rfl))
    (fun m hm => (hset m).trans (if_neg hm)) hcode₀ hr
  have hoffsets : ∀ m, b'.labelOffset m = if m = l then some b.position else b.labelOffset m := by
    intro m
    rw [← hset m, CodeBuffer.labelOffset, CodeBuffer.labelOffset, hlab]
  refine ⟨⟨?_, fun m hm => ?_, fun m t hm s hs => ?_⟩, hoffsets⟩
  · simpa [funext hoffsets, funext hset] using hcode
  · rw [hoffsets] at hm
    split at hm
    · cases hm
    · rename_i hml
      rw [CodeBuffer.pendingSites, hlab]
      exact (congrArg Array.toList (pendingSites_set hml)).trans (h.pending m hm)
  · rw [hoffsets] at hm
    split at hm
    · rename_i hml
      cases hm
      exact hrange s (hml ▸ hs)
    · exact h.inRange m t hm s hs

/-- Binding adds no piece. The label stands at the current position, where it is bound now or has
been bound before; the other labels stay as they are. -/
theorem bind {fresh : Bool} (h : Written ps b) (hb : CodeBuffer.bind l b = .ok fresh b') :
    Written ps b' ∧ (∀ m, b'.labelOffset m = if m = l then some b.position else b.labelOffset m) ∧
    ∀ p, b.labelOffset l = some p → p = b.position := by
  rw [CodeBuffer.bind] at hb
  obtain ⟨_, b₁, hb₁, hb⟩ := Step.bind_eq_ok.mp hb
  cases reserveLabels_eq_ok hb₁
  rw [Step.get_bind] at hb
  have hsize := lt_size_withLabels b l.index
  have h₁ := h.withLabels (l.index + 1 - b.labels.size)
  have hlabels :
      ∀ m, (b.withLabels (l.index + 1 - b.labels.size)).labelOffset m = b.labelOffset m :=
    fun m => labelOffset_withLabels
  have hpos : b.position = (b.withLabels (l.index + 1 - b.labels.size)).position := rfl
  rw [hpos]
  generalize b.withLabels (l.index + 1 - b.labels.size) = c at *
  simp only [← hlabels]
  cases hs : c.labels[l.index]? with
  | none => simp [hsize] at hs
  | some state =>
    cases state with
    | bound p =>
      simp only [hs] at hb
      have hl : c.labelOffset l = some p := by simp [labelOffset, hs]
      split at hb
      · rename_i hp
        cases hb
        refine ⟨h₁, fun m => ?_, fun q hq => ?_⟩
        · by_cases hm : m = l
          · rw [if_pos hm, hm, hl, hp]
          · rw [if_neg hm]
        · cases hl.symm.trans hq
          exact hp
      · exact absurd hb Step.throw_ne_ok
    | unbound waiting =>
      simp only [hs] at hb
      rw [Step.modify_bind] at hb
      obtain ⟨_, b₂, hb₂, hb⟩ := Step.bind_eq_ok.mp hb
      cases hb
      have hl : c.labelOffset l = none := by simp [labelOffset, hs]
      obtain ⟨hw, hoffsets⟩ := h₁.bind_unbound hs hb₂
      exact ⟨hw, hoffsets, by simp [hl]⟩

end Written

/-! ### Branches -/

namespace CodeBuffer

/-- The pieces of a branch: the two-byte form for a target that is bound and in reach. -/
def branchPieces (b : CodeBuffer) (short : UInt8) (long : List UInt8) (l : Label) : List Piece :=
  if (b.shortReach? l).isSome then [.bytes [short], .ref l .rel8] else [.bytes long, .ref l .rel32]

end CodeBuffer

/-- A branch adds its opcode and its field, and binds no label. -/
theorem Written.branch {ps : List Piece} {b b' : CodeBuffer} {l : Label} {short : UInt8}
    {long : List UInt8} (h : Written ps b) (hb : CodeBuffer.branch short long l b = .ok () b') :
    Written (ps ++ b.branchPieces short long l) b' ∧
    ∀ m, b'.labelOffset m = b.labelOffset m := by
  rw [CodeBuffer.branch, Step.get_bind] at hb
  cases hd : b.shortReach? l with
  | none =>
    rw [hd] at hb
    obtain ⟨_, _, ⟨⟩, hb⟩ := Step.bind_eq_ok.mp hb
    obtain ⟨hw, hlabels⟩ := (h.emit long).reference hb
    rw [branchPieces, hd]
    simp only [List.append_assoc] at hw
    exact ⟨hw, hlabels⟩
  | some d =>
    rw [hd] at hb
    cases hb
    obtain ⟨target, hl, hreach⟩ := Option.bind_eq_some_iff.mp hd
    have hfield : field ⟨(b.append [short]).position, .rel8⟩ target = .ok [d.toUInt8] := by
      have hdisp :
          (target : Int) - ((b.position + 1 : Nat) + 1) = target - (b.position + 2) := by omega
      simp only [field, position_append, List.length_singleton, hdisp, hreach]
    have happend : (b.append [short]).append [d.toUInt8] = b.append [short, d.toUInt8] := by
      simp [append]
    have hw := (h.emit [short]).snoc_bound hl hfield
    rw [happend] at hw
    rw [branchPieces, hd]
    simp only [List.append_assoc] at hw
    exact ⟨hw, fun _ => rfl⟩

end MachineCode
