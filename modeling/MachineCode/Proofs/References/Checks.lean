import MachineCode.Proofs.References.Methods

/-! Operands in the data section. An operation is only lowered if all bytes of their kinds lie in
the section. -/
namespace MachineCode

open X64 Lower

variable {α β : Type} {n : Nat} {o : Operand}

/-- If the operand lies in the data section, which has `n` bytes, all bytes of its kind do. -/
def Operand.Inside (o : Operand) (n : Nat) : Prop :=
  ∀ a start, o = .addr a → a.base = .data start →
    ∃ offset : Nat, (start : Int) + a.disp.toInt = offset ∧ offset + a.kind.size ≤ n

/-- Operands that a micro-operation reads or writes, by their indices. -/
def MicroOp.values : MicroOp → List Nat
  | .binary _ x y result => [x, y, result]
  | .mov src dst => [src, dst]
  | .pointerLoad pointer value _ | .pointerStore pointer value _ => [pointer, value]
  | .pointerLoadDisp pointer index _ _ value _ | .pointerStoreDisp pointer index _ _ value _
  | .lea pointer index _ _ value => [pointer, index, value]
  | .callStub _ args result | .callRuntime _ args result _ => args ++ result.toList
  | .jcc _ x y _ => [x, y]
  | .here x | .nullCheck x | .push x | .pop x => [x]
  | _ => []

/-- Operands that an operation reads or writes. A template has those of its fast path. -/
def Operation.operands : Operation → List Operand
  | .move src dst | .convert _ src dst => [src, dst]
  | .arith _ left right result _ | .logic _ left right result | .compareToInt _ left right result
  | .shift _ left right result | .condMove _ _ left right result => [left, right, result]
  | .negate value result | .abs value result | .sqrt value result | .significantBit _ value result
  | .lea value result => [value, result]
  | .compare left right => [left, right]
  | .compareAndSwap address expected newValue => [address, expected, newValue]
  | .tableSwitch value .. | .nullCheck value _ | .indirectCall value _ | .nativeCall _ value _
  | .monitorAddress _ value | .stackAllocate _ value => [value]
  | .ret value => value.toList
  | .template t operands _ _ => t.fastPath.flatMap fun op => op.values.filterMap (operands[·]?)
  | _ => []

theorem Operand.inside_of_not_inData (h : inData o = false) (n : Nat) : o.Inside n := by
  rintro ⟨kind, base, index, scale, disp⟩ start rfl hbase
  cases hbase
  cases h

theorem Operand.Inside.mono {n' : Nat} (h : o.Inside n) (hle : n ≤ n') : o.Inside n' := by
  intro a start ho hbase
  obtain ⟨offset, hoffset, hsize⟩ := h a start ho hbase
  exact ⟨offset, hoffset, Nat.le_trans hsize hle⟩

/-- From a draft in order whose data section has at least `n` bytes, the step only succeeds if the
operand is inside the section. -/
def Checks (n : Nat) (o : Operand) (x : Lower α) : Prop :=
  ∀ d a d', n ≤ d.data.size → Tidy False d → x d = .ok a d' → o.Inside d'.data.size

/-! ### Rules -/

section Rules

variable {x : Lower α} {f : α → Lower β}

theorem checks_of_not_inData (h : inData o = false) : Checks n o x :=
  fun _ _ _ _ _ _ => Operand.inside_of_not_inData h _

theorem checks_of_refuses (h : inData o = true → ∀ d a d', x d ≠ .ok a d') : Checks n o x := by
  cases hin : inData o with
  | false => exact checks_of_not_inData hin
  | true => exact fun d a d' _ _ hrun => absurd hrun (h hin d a d')

theorem checks_unhandled (detail : String) : Checks n o (unhandled detail : Lower α) :=
  fun _ _ _ _ _ hrun => absurd hrun unhandled_ne_ok

/-- What is known of the result of a step may be used. -/
theorem Checks.bind_of {p : α → Prop} (hx : Checks n o x) (hs : Snug False n x)
    (hp : ∀ d a d', x d = .ok a d' → p a) (hf : ∀ a, p a → Snug False n (f a)) :
    Checks n o (x >>= f) := by
  intro d b d'' hn hd hrun
  obtain ⟨a, d', hx', hf'⟩ := Step.bind_eq_ok.mp hrun
  obtain ⟨hlater, hd'⟩ := hs d a d' hn hd hx'
  obtain ⟨hlater', -⟩ := hf a (hp d a d' hx') d' b d'' (Nat.le_trans hn hlater.size) hd' hf'
  exact (hx d a d' hn hd hx').mono hlater'.size

theorem Checks.bind (hx : Checks n o x) (hs : Snug False n x) (hf : ∀ a, Snug False n (f a)) :
    Checks n o (x >>= f) :=
  hx.bind_of (p := fun _ => True) hs (fun _ _ _ _ => trivial) fun a _ => hf a

theorem Snug.checks_of {p : α → Prop} (hs : Snug False n x) (hp : ∀ d a d', x d = .ok a d' → p a)
    (hf : ∀ a, p a → Checks n o (f a)) : Checks n o (x >>= f) := by
  intro d b d'' hn hd hrun
  obtain ⟨a, d', hx', hf'⟩ := Step.bind_eq_ok.mp hrun
  obtain ⟨hlater, hd'⟩ := hs d a d' hn hd hx'
  exact hf a (hp d a d' hx') d' b d'' (Nat.le_trans hn hlater.size) hd' hf'

theorem Snug.checks (hs : Snug False n x) (hf : ∀ a, Checks n o (f a)) : Checks n o (x >>= f) :=
  hs.checks_of (p := fun _ => True) (fun _ _ _ _ => trivial) fun a _ => hf a

/-- The operand is checked by a first step that succeeds for no operand in the section. -/
theorem checks_bind_of_refuses (h : inData o = true → ∀ d a d', x d ≠ .ok a d') :
    Checks n o (x >>= f) := by
  refine checks_of_refuses fun hin d b d'' hrun => ?_
  obtain ⟨a, d', hx, -⟩ := Step.bind_eq_ok.mp hrun
  exact h hin d a d' hx

theorem checks_forM {xs : List α} {g : α → Lower Unit} {a : α} (ha : a ∈ xs) (hg : Checks n o (g a))
    (hs : ∀ b ∈ xs, Snug False n (g b)) : Checks n o (xs.forM g) := by
  obtain ⟨pre, post, rfl⟩ := List.append_of_mem ha
  have hsplit :
      (pre ++ a :: post).forM g = (pre.forM g >>= fun _ => g a >>= fun _ => post.forM g) := by
    simp only [List.forM_eq_forM, List.forM_append, List.forM_cons]
  rw [hsplit]
  exact (snug_forM fun b hb => hs b (by simp [hb])).checks fun _ =>
    hg.bind (hs a ha) fun _ => snug_forM fun b hb => hs b (by simp [hb])

end Rules

/-! ### Places -/

theorem inside_of_location {l : Location} {d d' : Draft} (hrun : location o d = .ok l d') :
    o.Inside d.data.size := by
  rintro ⟨kind, base, index, scale, disp⟩ start rfl ⟨⟩
  unfold location address at hrun
  dsimp only at hrun
  cases hindex : index.isSome with
  | true =>
    rw [hindex, if_pos rfl] at hrun
    exact absurd hrun unhandled_ne_ok
  | false =>
    rw [hindex, if_neg (by decide), Step.get_bind] at hrun
    split at hrun
    · exact absurd hrun Step.throw_ne_ok
    · rename_i hrange
      split at hrun
      · exact absurd hrun Step.throw_ne_ok
      · rename_i hlength
        have hnonneg : 0 ≤ (start : Int) + disp.toInt := by omega
        exact ⟨((start : Int) + disp.toInt).toNat, (Int.toNat_of_nonneg hnonneg).symm,
          Nat.le_of_not_lt hlength⟩

theorem checks_location {f : Location → Lower β}
    (hf : ∀ l k, n ≤ k → l.Covers k o → Snug False k (f l)) : Checks n o (location o >>= f) := by
  intro d b d'' hn hd hrun
  obtain ⟨l, d', hl, hrest⟩ := Step.bind_eq_ok.mp hrun
  obtain ⟨rfl, hcovers⟩ := covers_of_location hl
  obtain ⟨hlater, -⟩ := hf l _ hn hcovers d' b d'' (Nat.le_refl _) hd hrest
  exact (inside_of_location hl).mono hlater.size

/-- An operand is checked behind the place of another one. -/
theorem checks_behind {p : Operand} {f : Location → Lower β}
    (hf : ∀ l k, n ≤ k → l.Covers k p → Checks k o (f l)) : Checks n o (location p >>= f) := by
  intro d b d'' hn hd hrun
  obtain ⟨l, d', hl, hrest⟩ := Step.bind_eq_ok.mp hrun
  obtain ⟨rfl, hcovers⟩ := covers_of_location hl
  exact hf l _ hn hcovers d' b d'' (Nat.le_refl _) hd hrest

theorem gpr_ne_ok (h : inData o = true) (d : Draft) (r : Gpr)
    (d' : Draft) : gpr o d ≠ .ok r d' := by
  cases o with
  | addr a => exact unhandled_ne_ok
  | reg | stack | const => cases h

theorem xmm_ne_ok (h : inData o = true) (d : Draft) (x : Xmm)
    (d' : Draft) : xmm o d ≠ .ok x d' := by
  cases o with
  | addr a => exact unhandled_ne_ok
  | reg | stack | const => cases h

theorem checks_gpr {f : Gpr → Lower β} : Checks n o (gpr o >>= f) :=
  checks_bind_of_refuses gpr_ne_ok

theorem checks_xmm {f : Xmm → Lower β} : Checks n o (xmm o >>= f) :=
  checks_bind_of_refuses xmm_ne_ok

/-! ### Moves -/

variable {src dst left right value result : Operand} {keepFlags : Bool}

theorem checks_mov_source : Checks n src (mov src dst keepFlags) := by
  unfold mov
  split
  · exact checks_unhandled _
  · split
    · exact checks_unhandled _
    · exact checks_of_not_inData rfl
    · exact checks_of_not_inData rfl
    · exact checks_of_not_inData rfl
    · exact checks_of_not_inData rfl
    · exact checks_location fun l k _ hl => (snug_load hl).discard
    · exact checks_location fun source k _ hsource => snug_location fun target k' hle htarget =>
        Snug.bind (Snug.mono (snug_loadGpr hsource).discard hle) fun _ =>
          (snug_storeGpr htarget).discard

theorem checks_mov_destination : Checks n dst (mov src dst keepFlags) :=
  checks_of_refuses fun h d a d' => by
    unfold mov
    rw [if_pos h]
    exact unhandled_ne_ok

theorem checks_toScratch : Checks n o (toScratch o) :=
  checks_mov_source.bind (snug_mov _ _ _) fun _ => snug_pure scratch

theorem checks_toFloatScratch : Checks n o (toFloatScratch o) :=
  checks_mov_source.bind (snug_mov _ _ _) fun _ => snug_pure floatScratch

theorem checks_inGpr : Checks n o (inGpr o) := by
  unfold inGpr
  split
  · exact checks_of_refuses gpr_ne_ok
  · exact checks_toScratch

theorem checks_inXmm : Checks n o (inXmm o) := by
  unfold inXmm
  split
  · exact checks_of_refuses xmm_ne_ok
  · exact checks_toFloatScratch

/-! ### Arithmetic -/

theorem register?_of_gpr {r : Gpr} {d d' : Draft} (hrun : gpr o d = .ok r d') :
    o.register?.isSome = true := by
  cases o with
  | reg => rfl
  | stack | const | addr => exact absurd hrun unhandled_ne_ok

theorem register?_of_xmm {x : Xmm} {d d' : Draft} (hrun : xmm o d = .ok x d') :
    o.register?.isSome = true := by
  cases o with
  | reg => rfl
  | stack | const | addr => exact absurd hrun unhandled_ne_ok

theorem not_inData_of_register? (h : o.register?.isSome = true) : inData o = false := by
  cases o with
  | reg => rfl
  | stack | const | addr => cases h

theorem checks_applyBinary {op : Binary} {wide : Bool} {r : Gpr} :
    Checks n right (applyBinary op wide r right) := by
  unfold applyBinary
  split
  · exact checks_gpr
  · exact checks_of_not_inData rfl
  · split
    · exact checks_toScratch.bind (snug_toScratch _) fun _ => snug_emit _
    · refine checks_location fun l k _ hl => Snug.discard (snug_emitAt hl.valid ?_ ?_)
      · cases op <;> exact fun _ => rfl
      · intro offset _
        refine ⟨False.elim, fun h16 => ?_⟩
        have := bytes_ofWide_le wide
        rw [accessSize_withRm] at h16
        omega

theorem checks_withoutUse {res : Gpr} {f : Operand → Lower β} (hf : ∀ o, Snug False n (f o)) :
    Checks n right (withoutUse res right >>= f) := by
  cases hmemory : right.isMemory with
  | false => exact checks_of_not_inData (by cases right <;> first | rfl | cases hmemory)
  | true =>
    refine Checks.bind ?_ (snug_withoutUse _ _) hf
    rw [withoutUse, hmemory]
    refine checks_location fun l k hk _ => ?_
    split
    · exact (snug_toScratch right).bind fun _ => snug_pure _
    · exact snug_pure _

theorem checks_binary {op : Binary} (h : o ∈ [left, right, result]) :
    Checks n o (binary op left right result) := by
  have happly : ∀ (wide : Bool) (r : Gpr) (o : Operand), Snug False n (applyBinary op wide r o) :=
    fun _ _ _ => snug_applyBinary False.elim
  unfold binary
  simp only [List.mem_cons, List.not_mem_nil, or_false] at h
  obtain rfl | rfl | rfl := h
  · refine (snug_gpr _).checks fun res => ?_
    dsimp only
    split
    · exact checks_mov_source.bind (snug_mov _ _ _) fun _ => happly _ _ _
    · split
      · split
        · exact checks_applyBinary
        · exact (snug_emit _).checks fun _ =>
            checks_mov_source.bind (snug_mov _ _ _) fun _ => snug_emit _
      · exact (snug_withoutUse _ _).checks fun _ => checks_mov_source.bind (snug_mov _ _ _) fun _ =>
          happly _ _ _
  · refine (snug_gpr _).checks_of (fun _ _ _ => register?_of_gpr) fun res hres => ?_
    dsimp only
    split
    · exact (snug_mov _ _ _).checks fun _ => checks_applyBinary
    · split
      · rename_i hsame
        exact checks_of_not_inData (not_inData_of_register? (hsame ▸ hres))
      · exact checks_withoutUse fun _ => (snug_mov _ _ _).bind fun _ => happly _ _ _
  · exact checks_gpr

theorem checks_divide {isSigned rem : Bool} {info : Option DebugInfo}
    (h : o ∈ [left, right, result]) :
    Checks n o (divide isSigned rem left right result info) := by
  unfold divide
  simp only [List.mem_cons, List.not_mem_nil, or_false] at h
  by_cases hright : o = right
  · subst hright
    exact checks_gpr
  · refine (snug_gpr right).checks fun divisor => ?_
    split
    · exact checks_unhandled _
    · extract_lets out finish behind
      have hbehind : ∀ pc, Snug False n (behind pc) := by
        intro pc
        dsimp only [behind]
        cases info with
        | none => exact snug_mov _ _ _
        | some info => exact (snug_recordTrap pc info).bind fun _ => snug_mov _ _ _
      obtain rfl | rfl | rfl := h
      · refine checks_mov_source.bind (snug_mov _ _ _) fun _ => ?_
        split
        · exact (snug_divideSigned _ _ _).bind hbehind
        · exact (snug_divideUnsigned _ _).bind hbehind
      · exact absurd rfl hright
      · have hresult : ∀ pc, Checks n o (behind pc) := by
          intro pc
          dsimp only [behind]
          cases info with
          | none => exact checks_mov_destination
          | some info => exact (snug_recordTrap pc info).checks fun _ => checks_mov_destination
        refine (snug_mov _ _ _).checks fun _ => ?_
        split
        · exact (snug_divideSigned _ _ _).checks hresult
        · exact (snug_divideUnsigned _ _).checks hresult

theorem checks_integerArith {op : ArithOp} {info : Option DebugInfo}
    (h : o ∈ [left, right, result]) :
    Checks n o (integerArith op left right result info) := by
  cases op with
  | add | sub | mul => exact checks_binary h
  | div | rem | udiv | urem => exact checks_divide h

theorem checks_shift {op : ShiftOp} {count : Operand} (h : o ∈ [value, count, result]) :
    Checks n o (shift op value count result) := by
  unfold shift
  simp only [List.mem_cons, List.not_mem_nil, or_false] at h
  obtain rfl | rfl | rfl := h
  · refine (snug_gpr _).checks fun res => ?_
    dsimp only
    split
    · refine checks_mov_source.bind (snug_mov _ _ _) fun _ => ?_
      split
      · exact snug_emit _
      · exact snug_pure ()
    · refine (snug_gpr _).checks fun r => ?_
      split
      · exact checks_unhandled _
      · split
        · exact checks_unhandled _
        · exact checks_mov_source.bind (snug_mov _ _ _) fun _ => snug_emit _
    · exact checks_unhandled _
  · refine (snug_gpr _).checks fun res => ?_
    dsimp only
    split
    · exact checks_of_not_inData rfl
    · exact checks_gpr
    · exact checks_unhandled _
  · exact checks_gpr

theorem checks_applySse {op : SseOp} {double : Bool} {r : Xmm} :
    Checks n right (applySse op double r right) := by
  unfold applySse
  split
  · exact checks_xmm
  · exact checks_of_not_inData rfl
  · exact checks_location fun l k _ hl => Snug.discard
      (snug_at (i := fun m => .sse op double r (.mem m)) hl (fun _ => rfl) (scalarSize_le double)
        False.elim)

theorem checks_floatArith {op : ArithOp} (h : o ∈ [left, right, result]) :
    Checks n o (floatArith op left right result) := by
  have happly : ∀ (op : SseOp) (double : Bool) (r : Xmm) (o : Operand),
      Snug False n (applySse op double r o) := fun _ _ _ _ => snug_applySse False.elim
  unfold floatArith
  split
  · exact checks_unhandled _
  · simp only [List.mem_cons, List.not_mem_nil, or_false] at h
    obtain rfl | rfl | rfl := h
    · refine (snug_xmm _).checks fun res => ?_
      dsimp only
      split
      · split
        · exact checks_applySse
        · exact (snug_emit _).checks fun _ =>
            checks_mov_source.bind (snug_mov _ _ _) fun _ => snug_emit _
      · exact checks_mov_source.bind (snug_mov _ _ _) fun _ => happly _ _ _ _
    · refine (snug_xmm _).checks_of (fun _ _ _ => register?_of_xmm) fun res hres => ?_
      dsimp only
      split
      · rename_i hsides
        exact checks_of_not_inData (not_inData_of_register? (hsides.1 ▸ hres))
      · exact (snug_mov _ _ _).checks fun _ => checks_applySse
    · exact checks_xmm

theorem checks_arith {op : ArithOp} {info : Option DebugInfo} (h : o ∈ [left, right, result]) :
    Checks n o (arith op left right result info) := by
  unfold arith
  split
  · exact checks_floatArith h
  · exact checks_integerArith h

theorem checks_applyMask {op : PackedOp} {double : Bool} {lane : UInt64} (h : o ∈ [value, result]) :
    Checks n o (applyMask op double lane value result) := by
  simp only [List.mem_cons, List.not_mem_nil, or_false] at h
  obtain rfl | rfl := h
  · exact (snug_xmm _).checks fun res => checks_mov_source.bind (snug_mov _ _ _) fun _ =>
      snug_mask _ _ _ _
  · exact checks_xmm

theorem checks_negate (h : o ∈ [value, result]) : Checks n o (negate value result) := by
  unfold negate
  dsimp only
  split
  · exact checks_applyMask h
  · simp only [List.mem_cons, List.not_mem_nil, or_false] at h
    obtain rfl | rfl := h
    · exact (snug_gpr _).checks fun res =>
        checks_mov_source.bind (snug_mov _ _ _) fun _ => snug_emit _
    · exact checks_gpr

theorem checks_abs (h : o ∈ [value, result]) : Checks n o (Lower.abs value result) := by
  unfold Lower.abs
  dsimp only
  split
  · exact checks_applyMask h
  · simp only [List.mem_cons, List.not_mem_nil, or_false] at h
    obtain rfl | rfl := h
    · exact (snug_gpr _).checks fun res => checks_mov_source.bind (snug_mov _ _ _) fun _ =>
        (snug_emit _).bind fun _ => (snug_emit _).bind fun _ =>
          (snug_emit _).bind fun _ => snug_emit _
    · exact checks_gpr

theorem checks_sqrt (h : o ∈ [value, result]) : Checks n o (sqrt value result) := by
  simp only [List.mem_cons, List.not_mem_nil, or_false] at h
  obtain rfl | rfl := h
  · exact (snug_xmm _).checks fun _ => checks_applySse
  · exact checks_xmm

theorem checks_significantBit {most : Bool} (h : o ∈ [value, result]) :
    Checks n o (significantBit most value result) := by
  unfold significantBit
  simp only [List.mem_cons, List.not_mem_nil, or_false] at h
  obtain rfl | rfl := h
  · refine (snug_gpr _).checks fun res => checks_inGpr.bind (snug_inGpr _) fun src => ?_
    extract_lets tmp
    refine (snug_emit _).bind fun _ => (snug_emit _).bind fun _ => ?_
    split
    · exact snug_emit _
    · exact snug_pure ()
  · exact checks_gpr

/-! ### Compares and conversions -/

theorem checks_compareFloat {double : Bool} (h : o ∈ [left, right]) :
    Checks n o (compareFloat double left right) := by
  unfold compareFloat
  simp only [List.mem_cons, List.not_mem_nil, or_false] at h
  obtain rfl | rfl := h
  · exact checks_xmm
  · refine (snug_xmm left).checks fun a => ?_
    split
    · exact checks_xmm
    · exact checks_of_not_inData rfl
    · exact checks_location fun l k _ hl => Snug.discard
        (snug_at (i := fun m => .ucomis double a (.mem m)) hl (fun _ => rfl) (scalarSize_le double)
          False.elim)

theorem checks_compareRegister {wide : Bool} {r : Gpr} :
    Checks n right (compareRegister wide r right) := by
  unfold compareRegister
  split
  · exact checks_gpr
  · exact checks_of_not_inData rfl
  · split
    · split
      · exact checks_unhandled _
      · exact checks_toScratch.bind (snug_toScratch _) fun _ => snug_emit _
    · exact checks_location fun l k _ hl => Snug.discard
        (snug_at (i := fun m => .alu .cmp wide r (.mem m)) hl (fun _ => rfl) (bytes_ofWide_le wide)
          False.elim)

theorem checks_compareMemory {l : Location} (hl : l.Covers n left) :
    Checks n right (compareMemory left.kind l right) := by
  have hload : Snug False n (discard (loadGpr left.kind scratch l)) := (snug_loadGpr hl).discard
  unfold compareMemory
  dsimp only
  split
  · exact hload.checks fun _ => checks_compareRegister
  · split
    · exact checks_of_not_inData rfl
    · exact checks_of_not_inData rfl
    · exact hload.checks fun _ => checks_compareRegister

theorem checks_compare (h : o ∈ [left, right]) : Checks n o (compare left right) := by
  unfold Lower.compare
  dsimp only
  split
  · exact checks_compareFloat h
  · simp only [List.mem_cons, List.not_mem_nil, or_false] at h
    obtain rfl | rfl := h
    · split
      · exact checks_of_not_inData rfl
      · exact checks_of_not_inData rfl
      · exact checks_location fun l k _ hl => snug_compareMemory hl False.elim
    · split
      · exact (snug_gpr _).checks fun _ => checks_compareRegister
      · exact checks_unhandled _
      · exact checks_behind fun l k _ hl => checks_compareMemory hl

theorem checks_compareToInt {op : CompareToIntOp} (h : o ∈ [left, right, result]) :
    Checks n o (compareToInt op left right result) := by
  obtain h | rfl : o ∈ [left, right] ∨ o = result := by simpa [or_assoc] using h
  · exact (snug_gpr _).checks fun res => (checks_compare h).bind (snug_compare False.elim) fun _ =>
      snug_newLabel.bind fun done => (snug_lessOrUnordered _ _ _).bind fun _ =>
        (snug_emit _).bind fun _ =>
      (snug_emit _).bind fun _ => snug_bind _
  · exact checks_gpr

theorem checks_extend {ext : Extension} (h : o ∈ [src, dst]) : Checks n o (extend ext src dst) := by
  unfold extend
  simp only [List.mem_cons, List.not_mem_nil, or_false] at h
  obtain rfl | rfl := h
  · refine (snug_gpr _).checks fun d => ?_
    split
    · exact checks_gpr
    · exact checks_of_not_inData rfl
    · exact checks_location fun l k _ hl => Snug.discard
        (snug_at (i := fun m => .extend ext d (.mem m)) hl (fun _ => rfl)
          (accessSize_extend ext d _ ▸ bytes_source_le ext) False.elim)
  · exact checks_gpr

theorem checks_narrow (h : o ∈ [src, dst]) : Checks n o (narrow src dst) := by
  unfold narrow
  simp only [List.mem_cons, List.not_mem_nil, or_false] at h
  obtain rfl | rfl := h
  · refine (snug_gpr _).checks fun d => ?_
    split
    · exact checks_gpr
    · exact checks_location fun l k _ hl => Snug.discard
        (snug_at (i := .load false d) hl (fun _ => rfl) (by decide : 4 ≤ 8) False.elim)
  · exact checks_gpr

theorem checks_convert {op : ConvertOp} (h : o ∈ [src, dst]) : Checks n o (convert op src dst) := by
  have hpair : o = src ∨ o = dst := by simpa using h
  cases op with
  | i2l | i2b | i2c | i2s => exact checks_extend h
  | l2i => exact checks_narrow h
  | i2f | i2d | l2f | l2d =>
    obtain rfl | rfl := hpair
    · exact (snug_xmm _).checks fun _ => checks_inGpr.bind (snug_inGpr _) fun _ => snug_emit _
    · exact checks_xmm
  | f2d | d2f =>
    obtain rfl | rfl := hpair
    · exact (snug_xmm _).checks fun _ => checks_inXmm.bind (snug_inXmm _) fun _ => snug_emit _
    · exact checks_xmm
  | f2i | f2l | d2i | d2l | movI2F | movL2D =>
    obtain rfl | rfl := hpair
    · first | exact checks_xmm | exact (snug_xmm _).checks fun _ => checks_gpr
    · first | exact checks_xmm | exact (snug_xmm _).checks fun _ => checks_gpr
  | movF2I | movD2L =>
    obtain rfl | rfl := hpair
    · exact (snug_gpr _).checks fun _ => checks_xmm
    · exact checks_gpr

/-! ### Conditional moves -/

theorem checks_selectByBranch {s : Selection} {second : Operand} {unorderedIsTrue : Option Bool}
    (h : o ∈ [second, result]) : Checks n o (selectByBranch s second unorderedIsTrue result) := by
  have hmov : Checks n o (mov second result false) := by
    simp only [List.mem_cons, List.not_mem_nil, or_false] at h
    obtain rfl | rfl := h
    · exact checks_mov_source
    · exact checks_mov_destination
  unfold selectByBranch
  refine snug_newLabel.checks fun skip => ?_
  extract_lets keepFirst last
  have hlast : ∀ u, Checks n o (last u) := fun _ => hmov.bind (snug_mov _ _ _) fun _ => snug_bind _
  split
  · exact snug_newLabel.checks fun move => (snug_jcc _ _).checks fun _ =>
      (snug_jcc _ _).checks fun _ =>
      (snug_bind _).checks hlast
  · exact (snug_jcc _ _).checks hlast

theorem mem_selection {trueValue falseValue : Operand} (cond : Condition)
    (h : o ∈ [trueValue, falseValue, result]) :
    o = (selection cond trueValue falseValue result).first ∨
      o = (selection cond trueValue falseValue result).second ∨ o = result := by
  simp only [List.mem_cons, List.not_mem_nil, or_false] at h
  unfold selection
  split <;> tauto

/-- The second value is checked where it is loaded early. -/
theorem checks_preloaded {second : Operand} {res : Gpr} {f : Operand → Lower β}
    (hres : gpr? result = some res) (hf : ∀ o, Snug False n (f o)) :
    Checks n second (preloaded second result >>= f) := by
  cases hmemory : second.isMemory with
  | false => exact checks_of_not_inData (by cases second <;> first | rfl | cases hmemory)
  | true =>
    refine Checks.bind ?_ (snug_preloaded _ _) hf
    rw [preloaded, hres]
    dsimp only
    rw [hmemory]
    refine checks_location fun l k hk _ => ?_
    split
    · exact (snug_toScratch second).bind fun _ => snug_pure _
    · exact snug_pure _

theorem checks_condMove {cond : Condition} {unorderedIsTrue : Option Bool}
    {trueValue falseValue : Operand} (h : o ∈ [trueValue, falseValue, result]) :
    Checks n o (condMove cond unorderedIsTrue trueValue falseValue result) := by
  unfold condMove
  extract_lets s
  obtain hfirst | hsecond | rfl := mem_selection cond h
  · rw [hfirst]
    exact (snug_preloaded _ _).checks fun second => checks_mov_source.bind (snug_mov _ _ _) fun _ =>
      snug_second _ _ _ _
  · rw [hsecond]
    cases hres : gpr? result with
    | some res =>
      have hrest : ∀ second, Snug False n (mov s.first result true >>= fun _ => _) := fun second =>
        (snug_mov _ _ _).bind fun _ => snug_second s second unorderedIsTrue result
      have hchecks : Checks n s.second (preloaded s.second result >>= fun _ => _) :=
        checks_preloaded hres hrest
      simp only [hres] at hchecks
      exact hchecks
    | none =>
      have hbranch : preloaded s.second result = pure s.second := by
        unfold preloaded
        rw [hres]
      rw [hbranch, pure_bind]
      exact (snug_mov _ _ _).checks fun _ => snug_get.checks fun d =>
        checks_selectByBranch List.mem_cons_self
  · exact (snug_preloaded _ _).checks fun second =>
      checks_mov_destination.bind (snug_mov _ _ _) fun _ =>
      snug_second _ _ _ _

/-! ### Other operations -/

theorem checks_lea (h : o ∈ [value, result]) : Checks n o (lea value result) := by
  simp only [List.mem_cons, List.not_mem_nil, or_false] at h
  obtain rfl | rfl := h
  · exact (snug_gpr _).checks fun res => checks_location fun l k _ hl => Snug.discard
      (snug_at hl (fun _ => rfl) (Nat.zero_le 8) False.elim)
  · exact checks_gpr

theorem checks_indirectCall {target : Option CallTarget} {info : DebugInfo} :
    Checks n o (indirectCall o target info) :=
  checks_inGpr.bind (snug_inGpr _) fun _ => snug_position.bind fun _ => (snug_emit _).bind fun _ =>
    (snug_recordCall _ _ _ _).bind fun _ => snug_nopAfterCall

theorem checks_ret {value : Option Operand} (h : o ∈ value) : Checks n o (ret value) := by
  cases h
  exact checks_mov_source.bind (snug_mov _ _ _) fun _ => snug_popFrame.bind fun _ => snug_emit _

theorem checks_compareAndSwap {cell expected newValue : Operand}
    (h : o ∈ [cell, expected, newValue]) :
    Checks n o (compareAndSwap cell expected newValue) := by
  unfold compareAndSwap
  simp only [List.mem_cons, List.not_mem_nil, or_false] at h
  split
  · exact checks_unhandled _
  · rename_i wide hwide
    obtain rfl | rfl | rfl := h
    · refine (snug_gpr _).checks fun old => ?_
      split
      · exact checks_unhandled _
      · refine (snug_gpr _).checks fun new => checks_location fun l k _ hl => ?_
        split
        · exact snug_unhandled _
        · exact Snug.discard (snug_at (i := (.cmpxchg true wide · new)) hl (fun _ => rfl)
            (bytes_ofWide_le wide) False.elim)
    · exact checks_gpr
    · refine (snug_gpr _).checks fun old => ?_
      split
      · exact checks_unhandled _
      · exact checks_gpr

/-! ### Templates -/

section Templates

variable {x : Expansion} {index pointer : Nat} {scale : Scale} {disp : Int32}

/-- An operand of the template that is looked up is the one that is checked. -/
theorem checks_operand {f : Operand → Lower β} (hx : x.operands[index]? = some o)
    (hf : Checks n o (f o)) : Checks n o (x.operand index >>= f) := by
  have hoperand : x.operand index = pure o := by
    unfold Expansion.operand
    rw [hx]
  rw [hoperand, pure_bind]
  exact hf

theorem checks_cell (h : x.operands[index]? = some o ∨ x.operands[pointer]? = some o) :
    Checks n o (cell x pointer index scale disp) := by
  unfold cell
  obtain h | h := h
  · refine checks_operand h ((snug_operand x pointer).checks fun p =>
      (snug_inGpr p).checks fun base => ?_)
    split
    · exact checks_of_not_inData rfl
    · exact checks_gpr
    · exact checks_unhandled _
  · refine (snug_operand x index).checks fun i => checks_operand h
      (checks_inGpr.bind (snug_inGpr _) fun base => ?_)
    split
    · exact (snug_ofExcept _).bind fun _ => snug_pure _
    · refine (snug_gpr _).bind fun r => ?_
      split
      · exact snug_unhandled _
      · exact snug_pure _
    · exact snug_unhandled _

variable {m : Mem}

theorem checks_readCell (hm : m.Encodable) : Checks n o (readCell (.plain m) o) := by
  unfold readCell
  dsimp only
  split
  · exact checks_of_not_inData rfl
  · exact checks_unhandled _
  · exact (snug_loadGpr (.plain hm n o)).checks fun pc => checks_location fun l k _ hl =>
      (snug_storeGpr hl).discard.bind fun _ => snug_pure pc

theorem checks_writeCell (hm : m.Encodable) : Checks n o (writeCell (.plain m) o) := by
  unfold writeCell
  dsimp only
  split
  · exact checks_unhandled _
  · split
    · exact checks_of_not_inData rfl
    · exact checks_of_not_inData rfl
    · exact checks_location fun l k _ hl => (snug_loadGpr hl).discard.bind fun _ =>
        snug_storeGpr (.plain hm k o)

theorem checks_passArguments {args : List Nat} (count : Nat) (ints : List Gpr) (floats : List Xmm)
    (h : ∃ index ∈ args, x.operands[index]? = some o) :
    Checks n o (passArguments x count args ints floats) := by
  induction args generalizing ints floats with
  | nil =>
    obtain ⟨index, hindex, -⟩ := h
    cases hindex
  | cons arg args ih =>
    -- Either the argument in front is the one that is checked, or it is one of the others.
    obtain ⟨index, hindex, ho⟩ := h
    unfold passArguments
    by_cases hrest : index ∈ args
    · refine (snug_operand x arg).checks fun a => ?_
      split
      · cases floats with
        | nil => exact checks_unhandled _
        | cons r floats => exact (snug_mov _ _ _).checks fun _ => ih ints floats ⟨index, hrest, ho⟩
      · cases ints with
        | nil => exact checks_unhandled _
        | cons r ints => exact (snug_mov _ _ _).checks fun _ => ih ints floats ⟨index, hrest, ho⟩
    · obtain rfl : index = arg := (List.mem_cons.mp hindex).resolve_right hrest
      refine checks_operand ho ?_
      split
      · cases floats with
        | nil => exact checks_unhandled _
        | cons r floats =>
          exact checks_mov_source.bind (snug_mov _ _ _) fun _ => snug_passArguments _ _ _ _ _
      · cases ints with
        | nil => exact checks_unhandled _
        | cons r ints =>
          exact checks_mov_source.bind (snug_mov _ _ _) fun _ => snug_passArguments _ _ _ _ _

theorem checks_templateCall {target : CallTarget} {args : List Nat} {result : Option Nat}
    {info : Option DebugInfo} (h : ∃ index ∈ args ++ result.toList, x.operands[index]? = some o) :
    Checks n o (templateCall x target args result info) := by
  unfold templateCall
  obtain ⟨index, hindex, ho⟩ := h
  obtain harg | hresult := List.mem_append.mp hindex
  · refine (checks_passArguments _ _ _ ⟨index, harg, ho⟩).bind
      (snug_passArguments _ _ _ _ _) fun _ =>
      (snug_directCall _ _).bind fun _ => ?_
    split
    · exact snug_pure ()
    · exact (snug_operand x _).bind fun _ => snug_mov _ _ _
  · cases Option.mem_toList.mp hresult
    exact (snug_passArguments _ _ _ _ _).checks fun _ => (snug_directCall _ _).checks fun _ =>
      checks_operand ho checks_mov_destination

theorem checks_templateBinary {op : TemplateBinary} {a b r : Operand} {info : Option DebugInfo}
    (h : o ∈ [a, b, r]) : Checks n o (templateBinary op a b r info) := by
  cases op with
  | add | sub | mul | div | rem => exact checks_arith h
  | and | or | xor => exact checks_binary h
  | shl | shr | ushr => exact checks_shift h

theorem checks_popOperand : Checks n o (popOperand o) := by
  unfold popOperand
  split
  · exact checks_gpr
  · exact (snug_emit _).checks fun _ => checks_mov_destination

theorem checks_templateJump {cond : Condition} {a b target : Nat}
    (h : x.operands[a]? = some o ∨ x.operands[b]? = some o) :
    Checks n o (templateJump x cond a b target) := by
  have hjump : ∀ {l r : Operand} (t : Label), o ∈ [l, r] →
      Checks n o (Lower.compare l r >>= fun _ =>
      if l.kind.isFloating then templateFloatJump cond t else jcc (.ofCondition cond) t) :=
    fun t hmem => (checks_compare hmem).bind (snug_compare False.elim) fun _ =>
      snug_conditional _ _ _
  obtain h | h := h
  · exact checks_operand h ((snug_operand x b).checks fun _ => (snug_label x target).checks fun t =>
      hjump t (by simp))
  · exact (snug_operand x a).checks fun _ => checks_operand h ((snug_label x target).checks fun t =>
      hjump t (by simp))

theorem checks_microOp {op : MicroOp} (h : ∃ index ∈ op.values, x.operands[index]? = some o) :
    Checks n o (microOp x op) := by
  obtain ⟨index, hindex, ho⟩ := h
  cases op with
  | binary op a b result =>
    obtain rfl | rfl | rfl : index = a ∨ index = b ∨ index = result := by
      simpa [MicroOp.values] using hindex
    · exact checks_operand ho
        ((snug_operand x b).checks fun _ => (snug_operand x result).checks fun _ =>
        checks_templateBinary (by simp))
    · exact (snug_operand x a).checks fun _ =>
        checks_operand ho ((snug_operand x result).checks fun _ =>
        checks_templateBinary (by simp))
    · exact (snug_operand x a).checks fun _ => (snug_operand x b).checks fun _ => checks_operand ho
        (checks_templateBinary (by simp))
  | mov src dst =>
    obtain rfl | rfl : index = src ∨ index = dst := by simpa [MicroOp.values] using hindex
    · exact checks_operand ho ((snug_operand x dst).checks fun _ => checks_mov_source)
    · exact (snug_operand x src).checks fun _ => checks_operand ho checks_mov_destination
  | pointerLoad pointer result canTrap =>
    obtain rfl | rfl : index = pointer ∨ index = result := by simpa [MicroOp.values] using hindex
    · exact checks_operand ho (checks_inGpr.bind (snug_inGpr _) fun base =>
        (snug_operand x result).bind fun r =>
          (snug_readCell (encodable_based base 0) r).bind fun _ =>
        snug_templateTrap _ _ _)
    · exact (snug_operand x pointer).checks fun _ =>
        (snug_inGpr _).checks fun base => checks_operand ho
        ((checks_readCell (encodable_based base 0)).bind (snug_readCell (encodable_based base 0) o)
          fun _ => snug_templateTrap _ _ _)
  | pointerStore pointer value canTrap =>
    obtain rfl | rfl : index = pointer ∨ index = value := by simpa [MicroOp.values] using hindex
    · exact checks_operand ho (checks_inGpr.bind (snug_inGpr _) fun base =>
        (snug_operand x value).bind fun v =>
          (snug_writeCell (encodable_based base 0) v).bind fun _ =>
        snug_templateTrap _ _ _)
    · exact (snug_operand x pointer).checks fun _ =>
        (snug_inGpr _).checks fun base => checks_operand ho
        ((checks_writeCell (encodable_based base 0)).bind
          (snug_writeCell (encodable_based base 0) o)
          fun _ => snug_templateTrap _ _ _)
  | pointerLoadDisp pointer i scale disp result canTrap =>
    obtain hcell | rfl : (index = i ∨ index = pointer) ∨ index = result := by
      simpa [MicroOp.values, or_comm, or_left_comm] using hindex
    · refine (checks_cell ?_).bind_of (snug_cell _ _ _ _ _)
        (fun _ _ _ => encodable_of_cell) fun m hm =>
        (snug_operand x result).bind fun r => (snug_readCell hm r).bind fun _ =>
          snug_templateTrap _ _ _
      obtain rfl | rfl := hcell
      · exact .inl ho
      · exact .inr ho
    · exact (snug_cell _ _ _ _ _).checks_of (fun _ _ _ => encodable_of_cell) fun m hm =>
        checks_operand ho
        ((checks_readCell hm).bind (snug_readCell hm o) fun _ => snug_templateTrap _ _ _)
  | pointerStoreDisp pointer i scale disp value canTrap =>
    obtain hcell | rfl : (index = i ∨ index = pointer) ∨ index = value := by
      simpa [MicroOp.values, or_comm, or_left_comm] using hindex
    · refine (checks_cell ?_).bind_of (snug_cell _ _ _ _ _)
        (fun _ _ _ => encodable_of_cell) fun m hm =>
        (snug_operand x value).bind fun v => (snug_writeCell hm v).bind fun _ =>
          snug_templateTrap _ _ _
      obtain rfl | rfl := hcell
      · exact .inl ho
      · exact .inr ho
    · exact (snug_cell _ _ _ _ _).checks_of (fun _ _ _ => encodable_of_cell) fun m hm =>
        checks_operand ho
        ((checks_writeCell hm).bind (snug_writeCell hm o) fun _ => snug_templateTrap _ _ _)
  | lea pointer i scale disp result =>
    obtain hcell | rfl : (index = i ∨ index = pointer) ∨ index = result := by
      simpa [MicroOp.values, or_comm, or_left_comm] using hindex
    · refine (checks_cell ?_).bind (snug_cell _ _ _ _ _) fun m =>
        (snug_operand x result).bind fun r =>
        (snug_gpr r).bind fun _ => snug_emit _
      obtain rfl | rfl := hcell
      · exact .inl ho
      · exact .inr ho
    · exact (snug_cell _ _ _ _ _).checks fun m => checks_operand ho checks_gpr
  | here result | pop result =>
    cases List.mem_singleton.mp hindex
    first
      | exact checks_operand ho checks_gpr
      | exact checks_operand ho checks_popOperand
  | nullCheck pointer =>
    cases List.mem_singleton.mp hindex
    exact (snug_needInfo x _).checks fun _ => checks_operand ho checks_gpr
  | push value =>
    cases List.mem_singleton.mp hindex
    exact checks_operand ho (checks_inGpr.bind (snug_inGpr _) fun _ => snug_emit _)
  | callStub stub args result => exact checks_templateCall ⟨index, hindex, ho⟩
  | callRuntime target args result useInfoAfter => exact checks_templateCall ⟨index, hindex, ho⟩
  | jcc cond a b target =>
    obtain rfl | rfl : index = a ∨ index = b := by simpa [MicroOp.values] using hindex
    · exact checks_templateJump (.inl ho)
    · exact checks_templateJump (.inr ho)
  | _ => cases hindex

end Templates

/-! ### Operations and methods -/

theorem checks_template {t : Template} {operands : List Operand} {info infoAfter : Option DebugInfo}
    (h : o ∈ t.fastPath.flatMap fun op => op.values.filterMap (operands[·]?)) :
    Checks n o (template t operands info infoAfter) := by
  obtain ⟨op, hop, hvalue⟩ := List.mem_flatMap.mp h
  unfold template
  refine (snug_newLabels _).checks fun labels => ?_
  dsimp only
  refine Checks.bind (checks_forM hop (checks_microOp (List.mem_filterMap.mp hvalue))
    fun op _ => snug_microOp False.elim) (snug_forM fun op _ => snug_microOp False.elim) fun _ => ?_
  split
  · exact snug_enqueue False.elim
  · exact snug_pure ()

theorem checks_lower {op : Operation} (h : o ∈ op.operands) : Checks n o (lower op) := by
  cases op with
  | move src dst =>
    obtain rfl | rfl : o = src ∨ o = dst := by simpa [Operation.operands] using h
    · exact checks_mov_source
    · exact checks_mov_destination
  | arith op left right result info => exact checks_arith h
  | logic op left right result => exact checks_binary h
  | shift op value count result => exact checks_shift h
  | negate value result => exact checks_negate h
  | abs value result => exact checks_abs h
  | sqrt value result => exact checks_sqrt h
  | convert op src dst => exact checks_convert h
  | compare left right => exact checks_compare h
  | compareToInt op left right result => exact checks_compareToInt h
  | tableSwitch index low targets default =>
    cases List.mem_singleton.mp h
    exact checks_gpr
  | condMove cond unorderedIsTrue trueValue falseValue result => exact checks_condMove h
  | lea address result => exact checks_lea h
  | nullCheck object info =>
    cases List.mem_singleton.mp h
    exact checks_gpr
  | indirectCall address info | nativeCall symbol address info =>
    cases List.mem_singleton.mp h
    exact checks_indirectCall
  | ret value => exact checks_ret (Option.mem_toList.mp h)
  | monitorAddress index result | stackAllocate block result =>
    cases List.mem_singleton.mp h
    exact checks_gpr
  | compareAndSwap address expected newValue => exact checks_compareAndSwap h
  | significantBit most value result => exact checks_significantBit h
  | template t operands info infoAfter => exact checks_template h
  | _ => cases h

theorem checks_operation {op : Operation} (h : o ∈ op.operands) : Checks n o (operation op) :=
  (snug_setCurrent _).checks fun _ => snug_position.checks fun start => (checks_lower h).bind
    (snug_lower False.elim) fun _ => snug_position.bind fun stop =>
      snug_report (·.operation op.name start stop)

/-- A method that is compiled has the operands of its operations inside its data section. -/
theorem checks_method {constants : List DataConstant} {ops : List Operation} {op : Operation}
    (hop : op ∈ ops) (h : o ∈ op.operands) : Checks n o (method constants ops) :=
  (snug_forM fun c _ => (snug_dataConstant c.bytes c.align .int).discard).checks fun _ =>
    (snug_reserveLabels _).checks fun _ => snug_prologue.checks fun _ =>
    (checks_forM hop (checks_operation h) fun _ _ => snug_operation False.elim).bind
      (snug_forM fun _ _ => snug_operation False.elim) fun _ =>
        snug_slowPaths.bind fun _ => snug_finish

end MachineCode
