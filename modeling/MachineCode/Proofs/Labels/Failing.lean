import MachineCode.Proofs.Labels.Resolved

/-! Operations on labels that fail. All of them leave the buffer as it was, but for a bind that
cannot fill in one of the fields that wait for the label: it has recorded the position and has
filled in the fields in front of that one. Operations that fail may be followed by others; what a
label that no such bind has hit has waiting is known all the same. -/
namespace MachineCode

open CodeBuffer Piece

/-- The distance to a label does not fit a field. -/
def Error.outOfReach : Error → Bool
  | .branchOutOfRange .. | .displacementOutOfRange _ => true
  | _ => false

/-! ### Failures -/

namespace CodeBuffer

variable {b b' : CodeBuffer} {l m : Label} {kind : ReferenceKind} {e : Error} {target : Nat}

/-- The code with sites filled in. -/
def filled (target : Nat) (sites : List ReferenceSite) (code : Array UInt8) : Array UInt8 :=
  sites.foldl (fun code s => overwrite code s.offset (fieldBytes s (some target))) code

/-- What a bind leaves that has filled in the sites `done` and fails at the next one. -/
def stopped (b : CodeBuffer) (l : Label) (done : List ReferenceSite) : CodeBuffer :=
  { b with
    code := filled b.position done b.code
    labels := b.labels.setIfInBounds l.index (.bound b.position) }

theorem outOfReach_field {s : ReferenceSite}
    (h : field s target = .error e) : e.outOfReach = true := by
  have hword : ∀ v : Int, (do let d ← displacement32 v; return leBytes 4 d.toUInt32.toNat :
      Except Error (List UInt8)) = .error e → e.outOfReach = true := by
    intro v h
    unfold displacement32 at h
    cases hv : int32? v with
    | none =>
      rw [hv] at h
      cases h
      rfl
    | some d =>
      rw [hv] at h
      cases h
  obtain ⟨offset, kind⟩ := s
  cases kind with
  | rel8 =>
    simp only [field] at h
    split at h <;> cases h
    rfl
  | rel32 | table base => exact hword _ h

theorem reserveLabels_eq_error {count : Nat} (h : reserveLabels count b = .error e b') :
    b' = b ∧ e.outOfReach = false := by
  unfold reserveLabels at h
  split at h <;> cases h
  exact ⟨rfl, rfl⟩

/-- A reference fails before anything is written. -/
theorem reference_eq_error (h : reference l kind b = .error e b') : b' = b := by
  rw [reference, Step.get_bind] at h
  cases hl : b.labelOffset l with
  | some target =>
    simp only [hl] at h
    cases hf : field ⟨b.position, kind⟩ target with
    | ok bs =>
      rw [hf] at h
      cases h
    | error e' =>
      rw [hf] at h
      cases h
      rfl
  | none =>
    simp only [hl, addSite, bind_assoc] at h
    obtain h | ⟨_, b₁, -, h⟩ := Step.bind_eq_error.mp h
    · exact (reserveLabels_eq_error h).1
    · cases h

/-- A branch that fails has written its opcode. -/
theorem branch_eq_error {short : UInt8} {long : List UInt8}
    (h : branch short long l b = .error e b') :
    b' = b.append long := by
  rw [branch, Step.get_bind] at h
  cases hd : b.shortReach? l with
  | none =>
    rw [hd] at h
    exact reference_eq_error h
  | some d =>
    rw [hd] at h
    cases h

/-- Sites are filled in one after the other, up to the first whose field is too small. -/
theorem forM_resolve_eq_error {sites : List ReferenceSite}
    (h : sites.forM (resolve · target) b = .error e b') : ∃ done s rest,
      sites = done ++ s :: rest ∧ field s target = .error e ∧
      b' = { b with code := filled target done b.code } := by
  induction sites generalizing b with
  | nil => cases h
  | cons s sites ih =>
    cases hf : field s target with
    | error e' =>
      have hs : resolve s target b = .error e' b := by simp only [resolve, hf]
      obtain h | ⟨_, _, hok, -⟩ := Step.bind_eq_error.mp h
      · cases hs.symm.trans h
        exact ⟨[], s, sites, rfl, hf, rfl⟩
      · cases hs.symm.trans hok
    | ok bs =>
      have hs : resolve s target b = .ok () { b with code := overwrite b.code s.offset bs } := by
        simp only [resolve, hf]
      obtain h | ⟨_, _, hok, h⟩ := Step.bind_eq_error.mp h
      · cases hs.symm.trans h
      · cases hs.symm.trans hok
        obtain ⟨done, s', rest, rfl, hfield, rfl⟩ := ih h
        refine ⟨s :: done, s', rest, rfl, hfield, ?_⟩
        simp only [filled, List.foldl_cons, fieldBytes, hf]

theorem lt_size_of_pending {s : ReferenceSite} (h : s ∈ b.pendingSites l) :
    l.index < b.labels.size ∧ b.labelOffset l = none := by
  unfold pendingSites at h
  split at h
  · rename_i sites hs
    exact ⟨(Array.getElem?_eq_some_iff.mp hs).1, by simp [labelOffset, hs]⟩
  · simp at h

/-- Labels are reserved only where none is. -/
theorem withLabels_zero (b : CodeBuffer) : b.withLabels 0 = b := by
  simp [withLabels]

/-- A bind fails before anything is written, or at a site that does not reach the label. -/
theorem bind_eq_error (h : bind l b = .error e b') :
    b' = b ∧ e.outOfReach = false ∨ ∃ done s rest, (b.pendingSites l).toList = done ++ s :: rest ∧
      field s b.position = .error e ∧ b' = b.stopped l done := by
  obtain hlimit | ⟨_, b₁, hb₁, hrest⟩ := Step.bind_eq_error.mp h
  · exact .inl (reserveLabels_eq_error hlimit)
  have hreserved := reserveLabels_eq_ok hb₁
  -- A label that is bound or referred to is known, so nothing has been reserved for it.
  have hknown : ∀ state, b₁.labels[l.index]? = some state → state ≠ .unbound #[] → b₁ = b := by
    intro state hstate hne
    rw [hreserved] at hstate ⊢
    have hlt : l.index < b.labels.size := by
      by_contra hge
      simp only [withLabels, Array.getElem?_append, if_neg hge, Array.getElem?_replicate] at hstate
      split at hstate <;> cases hstate
      exact hne rfl
    rw [Nat.sub_eq_zero_of_le hlt, withLabels_zero]
  rw [Step.get_bind] at hrest
  cases hs : b₁.labels[l.index]? with
  | none =>
    simp only [hs] at hrest
    cases hrest
  | some state =>
    cases state with
    | bound p =>
      simp only [hs] at hrest
      split at hrest <;> cases hrest
      exact .inl ⟨hknown _ hs (by rintro ⟨⟩), rfl⟩
    | unbound waiting =>
      simp only [hs, Step.modify_bind] at hrest
      obtain hfails | ⟨_, b₂, -, hreturn⟩ := Step.bind_eq_error.mp hrest
      · obtain ⟨done, s, rest, hsites, hfield, rfl⟩ := forM_resolve_eq_error hfails
        have hne : LabelState.unbound waiting ≠ .unbound #[] := by
          rintro ⟨⟩
          simp at hsites
        have hsame := hknown _ hs hne
        rw [hsame] at hs hfield ⊢
        refine .inr ⟨done, s, rest, ?_, hfield, rfl⟩
        simpa only [pendingSites, hs] using hsites
      · cases hreturn

/-! ### What a bind leaves that fails -/

@[simp] theorem size_filled (sites : List ReferenceSite) (code : Array UInt8) :
    (filled target sites code).size = code.size := by
  induction sites generalizing code with
  | nil => rfl
  | cons s sites ih => exact (ih _).trans (size_overwrite _ _ _)

/-- Bytes outside of the fields stay. -/
theorem getElem?_filled {sites : List ReferenceSite} {code : Array UInt8} {i : Nat}
    (h : ∀ s ∈ sites, i < s.offset ∨ s.offset + s.kind.width ≤ i) :
    (filled target sites code)[i]? = code[i]? := by
  induction sites generalizing code with
  | nil => rfl
  | cons s sites ih =>
    obtain ⟨hs, hsites⟩ := List.forall_mem_cons.mp h
    refine (ih hsites).trans (getElem?_overwrite_of_outside ?_)
    rwa [length_fieldBytes]

/-- Of the other labels nothing changes. -/
theorem stopped_of_ne {done : List ReferenceSite} (hm : m ≠ l) :
    (b.stopped l done).labelOffset m = b.labelOffset m ∧
    (b.stopped l done).pendingSites m = b.pendingSites m := by
  have hne : l.index ≠ m.index := fun h => hm (by cases m; cases l; simp_all)
  constructor
  · simp [labelOffset, stopped, hne]
  · simp [pendingSites, stopped, hne]

theorem stopped_self {done : List ReferenceSite} (hl : l.index < b.labels.size) :
    (b.stopped l done).labelOffset l = some b.position := by
  simp [labelOffset, stopped, hl]

end CodeBuffer

/-! ### Pieces without the fields of a label -/

/-- `qs` is `ps` with bytes in place of the fields of a label. -/
inductive Frozen (l : Label) : List Piece → List Piece → Prop
  | nil : Frozen l [] []
  | bytes (bs : List UInt8) {ps qs : List Piece} (h : Frozen l ps qs) :
      Frozen l (.bytes bs :: ps) (.bytes bs :: qs)
  | other {m : Label} (hm : m ≠ l) (kind : ReferenceKind) {ps qs : List Piece}
    (h : Frozen l ps qs) :
    Frozen l (.ref m kind :: ps) (.ref m kind :: qs)
  | field {kind : ReferenceKind} {bs : List UInt8} (hbs : bs.length = kind.width)
    {ps qs : List Piece}
    (h : Frozen l ps qs) : Frozen l (.ref l kind :: ps) (.bytes bs :: qs)

namespace Frozen

variable {l : Label} {ps qs : List Piece}

theorem sites_self (h : Frozen l ps qs) (offset : Nat) : sites l offset qs = [] := by
  induction h generalizing offset with
  | nil => rfl
  | bytes bs _ ih => exact ih _
  | other hm kind _ ih => simp [sites, hm, ih]
  | field hbs _ ih => exact ih _

theorem sites_of_ne (h : Frozen l ps qs) {m : Label} (hm : m ≠ l) (offset : Nat) :
    sites m offset qs = sites m offset ps := by
  induction h generalizing offset with
  | nil => rfl
  | bytes bs _ ih => exact ih _
  | other _ kind _ ih => simp [sites, ih]
  | field hbs _ ih => simp [sites, hm.symm, hbs, ih]

/-- Some sites of a label are filled in, the others keep their placeholders; either way bytes stand
in its fields. -/
theorem exists_filled {env env' : Label → Option Nat} {target : Nat} (hl : env l = none)
    (henv : ∀ m, m ≠ l → env' m = env m) {before : List UInt8} {code : Array UInt8}
    {done rest : List ReferenceSite} (hcode : code.toList = before ++ render env before.length ps)
    (hsites : sites l before.length ps = done ++ rest) :
    ∃ qs, Frozen l ps qs ∧ (filled target done code).toList =
      before ++ render env' before.length qs := by
  induction ps generalizing before code done rest with
  | nil =>
    obtain ⟨rfl, -⟩ := List.append_eq_nil_iff.mp hsites.symm
    exact ⟨[], .nil, hcode⟩
  | cons p ps ih =>
    -- The first piece stands as the bytes `bs`, and is left behind.
    have step : ∀ (bs : List UInt8) {code : Array UInt8} {done rest : List ReferenceSite},
        code.toList = before ++ (bs ++ render env (before.length + bs.length) ps) →
        sites l (before.length + bs.length) ps = done ++ rest → ∃ qs, Frozen l ps qs ∧
          (filled target done code).toList =
            before ++ (bs ++ render env' (before.length + bs.length) qs) := by
      intro bs code done rest hcode hsites
      rw [← List.length_append] at hcode hsites ⊢
      rw [← List.append_assoc] at hcode
      obtain ⟨qs, hqs, hfilled⟩ := ih hcode hsites
      exact ⟨qs, hqs, by rw [hfilled, List.append_assoc]⟩
    cases p with
    | bytes bs =>
      obtain ⟨qs, hqs, hfilled⟩ := step bs hcode hsites
      exact ⟨_, .bytes bs hqs, hfilled⟩
    | ref m kind =>
      have hlen : ∀ t, (fieldBytes ⟨before.length, kind⟩ t).length = kind.width :=
        fun t => length_fieldBytes _ t
      by_cases hm : m = l
      · subst hm
        simp only [sites, if_true, List.cons_append, List.nil_append] at hsites
        cases done with
        | nil =>
          simp only [render, ← hlen (env m)] at hcode
          obtain ⟨qs, hqs, hfilled⟩ := step _ hcode (List.nil_append _).symm
          exact ⟨_, .field (hlen _) hqs, hfilled⟩
        | cons s done =>
          rw [List.cons_append] at hsites
          obtain ⟨rfl, hlater⟩ := List.cons_eq_cons.mp hsites
          have hfield :
              (overwrite code before.length
                (fieldBytes ⟨before.length, kind⟩ (some target))).toList =
              before ++ (fieldBytes ⟨before.length, kind⟩ (some target) ++
                render env (before.length + kind.width) ps) :=
            toList_overwrite hcode (by rw [hlen, hlen])
          rw [← hlen (some target)] at hfield hlater
          obtain ⟨qs, hqs, hfilled⟩ := step _ hfield hlater
          exact ⟨_, .field (hlen _) hqs, hfilled⟩
      · simp only [sites, if_neg hm, List.nil_append] at hsites
        rw [← hlen (env m)] at hsites
        simp only [render, ← hlen (env m)] at hcode
        obtain ⟨qs, hqs, hfilled⟩ := step _ hcode hsites
        refine ⟨_, .other hm kind hqs, ?_⟩
        rw [hfilled, render, henv m hm, hlen]

end Frozen

/-- A bind that fails leaves the fields of its label as bytes, and the pieces of all other
labels. -/
theorem Written.stopped {ps : List Piece} {b : CodeBuffer} {l : Label}
    {done rest : List ReferenceSite} {s : ReferenceSite} (h : Written ps b)
    (hsites : (b.pendingSites l).toList = done ++ s :: rest) :
    ∃ qs, Frozen l ps qs ∧ Written qs (b.stopped l done) := by
  obtain ⟨hsize, hl⟩ :=
    lt_size_of_pending (Array.mem_toList_iff.mp (hsites ▸ List.mem_append_right done (.head rest)))
  have hother : ∀ m, m ≠ l → (b.stopped l done).labelOffset m = b.labelOffset m :=
    fun m hm => (stopped_of_ne hm).1
  have hrender : b.code.toList = [] ++ render b.labelOffset ([] : List UInt8).length ps := h.code
  obtain ⟨qs, hqs, hcode⟩ :=
    Frozen.exists_filled hl hother hrender ((h.pending l hl).symm.trans hsites)
  refine ⟨qs, hqs, hcode, fun m hm => ?_, fun m target hm s' hs' => ?_⟩
  · have hml : m ≠ l := by
      rintro rfl
      rw [stopped_self hsize] at hm
      cases hm
    rw [hqs.sites_of_ne hml, (stopped_of_ne hml).2, h.pending m (by rw [← hother m hml, hm])]
  · by_cases hml : m = l
    · rw [hml, hqs.sites_self] at hs'
      cases hs'
    · rw [hqs.sites_of_ne hml] at hs'
      exact h.inRange m target (by rw [← hother m hml, hm]) s' hs'

namespace BufferOp

variable {ps : List Piece} {b b' : CodeBuffer} {op : BufferOp} {ops : List BufferOp} {e : Error}

/-- The operation is one reference, one bind or a reservation. -/
def onLabels : BufferOp → Bool
  | reserve _ | rel8 _ | rel32 _ | tableEntry .. | bind _ => true
  | emit _ | newLabel | jmp _ | jcc .. | jmpShort _ | jccShort .. => false

/-- The buffer that an operation leaves, also when it fails. -/
def attempt (op : BufferOp) (b : CodeBuffer) : CodeBuffer :=
  match op.run b with
  | .ok _ b' | .error _ b' => b'

/-- One operation after the other, whether they fail or not. -/
def attemptAll (ops : List BufferOp) (b : CodeBuffer) : CodeBuffer :=
  ops.foldl (fun b op => op.attempt b) b

/-- The references to a label that an operation adds. One that fails adds none. -/
def added (l : Label) (op : BufferOp) (b : CodeBuffer) : List ReferenceSite :=
  match op.run b with
  | .ok .. => sites l b.position (op.pieces b)
  | .error .. => []

def addedAll (l : Label) : List BufferOp → CodeBuffer → List ReferenceSite
  | [], _ => []
  | op :: ops, b => op.added l b ++ addedAll l ops (op.attempt b)

/-- The operation binds the label, and fails because a field that waits for it cannot hold the
distance. -/
def breaks (l : Label) (op : BufferOp) (b : CodeBuffer) : Bool :=
  op = bind l && match op.run b with
    | .ok .. => false
    | .error e _ => e.outOfReach

/-- An operation of a run breaks the label. -/
def broken (l : Label) : List BufferOp → CodeBuffer → Bool
  | [], _ => false
  | op :: ops, b => op.breaks l b || broken l ops (op.attempt b)

theorem breaks_eq_true {l : Label} (h : op.run b = .error e b') :
    op.breaks l b = true ↔ op = bind l ∧ e.outOfReach = true := by
  simp only [breaks, h, Bool.and_eq_true, decide_eq_true_eq]

/-- What an operation leaves that fails: bytes that are written in front of a reference, or a bind
that has stopped. -/
theorem run_eq_error (h : op.run b = .error e b') :
    (∃ bs, b' = b.append bs ∧ (op.onLabels = true → bs = [])) ∧ (∀ l, op.breaks l b = false) ∨
    ∃ l done s rest, op = bind l ∧ e.outOfReach = true ∧
    (b.pendingSites l).toList = done ++ s :: rest ∧
      field s b.position = .error e ∧ b' = b.stopped l done := by
  have hnil : b.append [] = b := by simp [append]
  cases op with
  | emit bs | newLabel => cases h
  | reserve count =>
    exact .inl ⟨⟨[], hnil ▸ (reserveLabels_eq_error h).1, fun _ => rfl⟩, fun _ => rfl⟩
  | rel8 l | rel32 l | tableEntry l base =>
    exact .inl ⟨⟨[], hnil ▸ reference_eq_error h, fun _ => rfl⟩, fun _ => rfl⟩
  | jmp l | jcc cond l =>
    exact .inl ⟨⟨_, branch_eq_error h, (absurd · Bool.false_ne_true)⟩, fun _ => rfl⟩
  | jmpShort l | jccShort cond l =>
    obtain h | ⟨_, _, hemit, h⟩ := Step.bind_eq_error.mp h
    · cases h
    · cases hemit
      exact .inl ⟨⟨_, reference_eq_error h, (absurd · Bool.false_ne_true)⟩, fun _ => rfl⟩
  | bind l =>
    have hbind := Step.discard_eq_error.mp h
    obtain ⟨rfl, hreach⟩ | ⟨done, s, rest, hsites, hfield, rfl⟩ := bind_eq_error hbind
    · refine .inl ⟨⟨[], hnil.symm, fun _ => rfl⟩, fun m => Bool.eq_false_iff.mpr fun hbreaks => ?_⟩
      rw [((breaks_eq_true h).mp hbreaks).2] at hreach
      cases hreach
    · exact .inr ⟨l, done, s, rest, rfl, outOfReach_field hfield, hsites, hfield, rfl⟩

/-- One operation, whether it fails or not: it adds its references, and what a label has waiting is
lost only when the operation breaks it. -/
theorem written_attempt (h : Written ps b) (op : BufferOp) :
    ∃ qs, Written qs (op.attempt b) ∧ ∀ l, op.breaks l b = false →
    sites l 0 qs = sites l 0 ps ++ op.added l b := by
  unfold attempt added
  cases hr : op.run b with
  | ok u b' =>
    refine ⟨_, (written_run h hr).1, fun l _ => ?_⟩
    rw [sites_append, Nat.zero_add, ← h.position]
  | error e b' =>
    obtain ⟨⟨bs, rfl, -⟩, -⟩ | ⟨l, done, s, rest, rfl, hreach, hsites, -, rfl⟩ := run_eq_error hr
    · exact ⟨_, h.emit bs, fun l _ => by simp [sites_append, sites]⟩
    · obtain ⟨qs, hqs, hw⟩ := h.stopped hsites
      refine ⟨qs, hw, fun m hm => ?_⟩
      have hml : m ≠ l := by
        rintro rfl
        rw [(breaks_eq_true hr).mpr ⟨rfl, hreach⟩] at hm
        cases hm
      rw [hqs.sites_of_ne hml, List.append_nil]

/-- By induction along the run, the pieces hold the references to every label that is not broken. -/
theorem written_attemptAll (h : Written ps b) (ops : List BufferOp) :
    ∃ qs, Written qs (attemptAll ops b) ∧
      ∀ l, broken l ops b = false → sites l 0 qs = sites l 0 ps ++ addedAll l ops b := by
  induction ops generalizing ps b with
  | nil => exact ⟨ps, h, fun l _ => (List.append_nil _).symm⟩
  | cons op ops ih =>
    obtain ⟨qs, hqs, hadded⟩ := written_attempt h op
    obtain ⟨rs, hrs, haddedAll⟩ := ih hqs
    refine ⟨rs, hrs, fun l hl => ?_⟩
    obtain ⟨hop, hops⟩ := Bool.or_eq_false_iff.mp hl
    rw [haddedAll l hops, hadded l hop, List.append_assoc]
    rfl

end BufferOp

namespace CodeBuffer

/-- A site that waits keeps the code from being finished. -/
theorem finish_of_pending {b : CodeBuffer} {l : Label} {s : ReferenceSite}
    (h : s ∈ b.pendingSites l) :
    ∃ m, b.finish = .error (.unboundLabel m) := by
  unfold finish
  cases hm : b.unboundLabel with
  | some m => exact ⟨m, rfl⟩
  | none =>
    have hok : b.finish = .ok b.code := by rw [finish, hm]
    rw [(finish_eq_ok hok).2 l] at h
    simp at h

/-- The field of a site stands at its offset. -/
theorem exists_render (env : Label → Option Nat) {ps : List Piece} {l : Label} {offset : Nat}
    {s : ReferenceSite} (h : s ∈ sites l offset ps) : ∃ before after,
      render env offset ps = before ++ (fieldBytes s (env l) ++ after) ∧
      s.offset = offset + before.length := by
  induction ps generalizing offset with
  | nil => cases h
  | cons p ps ih =>
    cases p with
    | bytes bs =>
      obtain ⟨before, after, hrender, hoffset⟩ := ih h
      refine ⟨bs ++ before, after, by rw [render, hrender, List.append_assoc], ?_⟩
      rw [hoffset, List.length_append, Nat.add_assoc]
    | ref m kind =>
      obtain hs | hs := List.mem_append.mp h
      · obtain ⟨rfl, hsite⟩ := List.mem_ite_nil_right.mp hs
        obtain rfl := List.mem_singleton.mp hsite
        exact ⟨[], _, rfl, rfl⟩
      · obtain ⟨before, after, hrender, hoffset⟩ := ih hs
        refine ⟨fieldBytes ⟨offset, kind⟩ (env m) ++ before, after,
          by rw [render, hrender, List.append_assoc], ?_⟩
        rw [hoffset, List.length_append, length_fieldBytes, Nat.add_assoc]

/-- In finished code the field of a piece has its value. -/
theorem holds_of_written {ps : List Piece} {b : CodeBuffer} {code : Array UInt8} {l : Label}
    {s : ReferenceSite} (h : Written ps b) (hcode : b.finish = .ok code) (hs : s ∈ sites l 0 ps) :
    ∃ p, b.labelOffset l = some p ∧ Holds code s.offset s.kind.width (s.displacement p) := by
  obtain ⟨p, bs, hp, hbs⟩ := resolved_of_finish h hcode hs
  obtain ⟨rfl, -⟩ := finish_eq_ok hcode
  obtain ⟨before, after, hrender, hoffset⟩ := exists_render b.labelOffset hs
  have hfield : fieldBytes s (b.labelOffset l) = bs := by simp only [fieldBytes, hp, hbs]
  have hdrop : b.code.toList.drop s.offset = bs ++ after := by
    rw [h.code, hrender, hfield, hoffset, Nat.zero_add, List.drop_left]
  exact ⟨p, hp, holds_of_field hbs hdrop⟩

end CodeBuffer

namespace BufferOp

end BufferOp

end MachineCode
