import MachineCode.Proofs.Execution.Values

/-! Moves put the value of their source into their destination and change nothing else but the
scratch register, and that only on the way to memory. -/
namespace MachineCode.Lower

open X64 Machine Chunk

variable {β : Type} {S : Site} {C : Context} {l : Location}

/-- A place of an operand is at a fixed address or in the data section. -/
theorem fixed_of_place? {frame : Frame} {o : Operand} (h : place? frame o = some l) : l.Fixed := by
  intro hdata
  cases hin : inData o with
  | false =>
    obtain ⟨m, rfl, hrip⟩ := place?_plain hin h
    exact hrip
  | true =>
    obtain ⟨kind, disp, index, scale, offset, rfl⟩ : ∃ kind disp index scale offset,
        o = .addr ⟨kind, .data offset, index, scale, disp⟩ := by
      unfold inData at hin
      split at hin
      · exact ⟨_, _, _, _, _, rfl⟩
      · cases hin
    cases h
    cases hdata

theorem fixed_ofData (offset : Nat) : (Location.ofData offset).Fixed := nofun

/-! ### Immediates -/

section Immediates

variable {s : Machine} {next : Word}

/-- A word from its signed form. -/
theorem ofInt_signedAt (n : Nat) :
    BitVec.ofInt 64 (Instr.signedAt .qword n) = BitVec.ofNat 64 n := by
  refine BitVec.eq_of_toInt_eq ?_
  rw [BitVec.toInt_ofInt, BitVec.toInt_ofNat', Instr.signedAt]
  exact Int.bmod_bmod

theorem executes_movImm (wide : Bool) (dst : Gpr) (value : UInt64) :
    Executes (Instr.movImm wide dst value).decoded next s fun c =>
      c = s.setReg dst (low value.toBitVec (.ofWide wide)) := by
  have hlow : BitVec.ofInt 64 ((value.toNat % 2 ^ 32 : Nat) : Int) = low value.toBitVec .dword := by
    rw [BitVec.ofInt_natCast]
    refine BitVec.eq_of_toNat_eq ?_
    simp [low, Width.bits, Width.bytes]
  rw [Instr.decoded, Instr.decodedMovImm]
  split
  · rename_i hshort
    refine (executes_mov (readsSource_imm _ _)).mono fun _ c hc => ?_
    rw [hc, merge_dword, hlow, low_low]
    cases wide with
    | false => rfl
    | true =>
      have hlt : value.toBitVec.toNat < 2 ^ 32 := by
        simpa [UInt64.lt_iff_toNat_lt] using hshort
      refine congrArg (s.setReg dst) ?_
      rw [show (Width.ofWide true) = .qword from rfl, low_qword]
      refine BitVec.eq_of_toNat_eq ?_
      rw [low]
      simp only [BitVec.toNat_setWidth, Width.bits, Width.bytes]
      omega
  · rename_i hlong
    obtain rfl : wide = true := by
      cases wide with
      | false => simp at hlong
      | true => rfl
    refine (executes_mov (readsSource_imm _ _)).mono fun _ c hc => ?_
    rw [hc, merge_qword, ofInt_signedAt, show (Width.ofWide true) = .qword from rfl, low_qword]
    exact congrArg (s.setReg dst) (BitVec.ofNat_toNat ..)

theorem executes_movAbs (dst : Gpr) (a : Word) :
    Executes (Instr.movAbs dst ⟨a⟩).decoded next s fun c => c = s.setReg dst a := by
  refine (executes_mov (readsSource_imm _ _)).mono fun _ c hc => ?_
  rw [hc, merge_qword, ofInt_signedAt]
  exact congrArg (s.setReg dst) (BitVec.ofNat_toNat ..)

end Immediates

theorem computes_movImm (wide : Bool) (dst : Gpr) (value : UInt64) {A : Machine → Prop} :
    Computes S C (emit (.movImm wide dst value)) A fun _ s c =>
      c = s.setReg dst (low value.toBitVec (.ofWide wide)) :=
  computes_emit (Instr.encodable_of_none rfl) (fun _ _ _ => executes_movImm wide dst value)
    fun _ _ h => by rw [h]; rfl

/-- Exclusive or with itself clears a register. -/
theorem computes_zero (r : Gpr) {A : Machine → Prop} : Computes S C (emit (zero r)) A fun _ s c =>
    ∃ flags, c = { s with flags := flags }.setReg r 0 := by
  refine computes_emit (Instr.encodable_of_none rfl) (fun c next _ => ?_) ?_
  · refine (executes_alu (by decide) (readsRm_reg r .dword).source).mono fun _ c' hc => ?_
    obtain ⟨flags, rfl⟩ := hc
    refine ⟨flags, congrArg _ ?_⟩
    simp [aluAt, Flags.alu, low]
  · rintro s c ⟨flags, rfl⟩
    rfl

/-! ### Loads and stores -/

section Accesses

variable {s : Machine} {m : Mem} {next a : Word} {w : Width} {dst : Gpr}

/-- A number that has been loaded fits its width, and all wider ones. -/
theorem low_loaded {w' : Width} (h : w.bytes ≤ w'.bytes) :
    low (s.loaded a w.bytes) w' = s.loaded a w.bytes := by
  refine low_ofNat (Nat.lt_of_lt_of_le (Memory.readWord_lt s.memory a w.bytes) ?_)
  rw [show 256 = 2 ^ 8 from rfl, ← Nat.pow_mul]
  exact Nat.pow_le_pow_right (by decide) (Nat.mul_le_mul_left 8 h)

theorem setWidth_signExtend_of_le {k m n : Nat} (v : BitVec m) (h : k ≤ n) :
    (v.signExtend n).setWidth k = v.signExtend k := by
  refine BitVec.eq_of_getLsbD_eq fun i hi => ?_
  rw [BitVec.getLsbD_setWidth, BitVec.getLsbD_signExtend, BitVec.getLsbD_signExtend]
  simp [hi, Nat.lt_of_lt_of_le hi h]

theorem setWidth_ofInt {n : Nat} (hn : n ≤ 64) (x : BitVec n) :
    (BitVec.ofInt 64 x.toInt).setWidth n = x :=
  (setWidth_signExtend_of_le x hn).trans (BitVec.signExtend_eq x)

/-- A narrow number with its sign, at operand size 32. -/
theorem low_signExtend (w : Width) (n : Nat) : low (signExtend (BitVec.ofNat 64 n) w) .dword =
    ((BitVec.ofNat w.bits n).signExtend 32).setWidth 64 := by
  rw [low, signExtend, BitVec.setWidth_ofNat_of_le w.bits_le]
  exact congrArg (BitVec.setWidth 64) (setWidth_signExtend_of_le _ (by decide))

theorem executes_loadZero (hw : w.bytes ≤ 4) (ha : s.effectiveAddress m next = a)
    (hfaults : s.faultsAt a w.bytes = false) :
    Executes (.movzx .dword dst w (.mem m)) next s fun c =>
      c = s.setReg dst (s.loaded a w.bytes) :=
  (executes_movzx (readsRm_mem ha hfaults)).mono fun _ c hc => by
    rw [hc, merge_dword, low_loaded hw]

theorem executes_loadSigned (ha : s.effectiveAddress m next = a)
    (hfaults : s.faultsAt a w.bytes = false) :
    Executes (.movsx .dword dst w (.mem m)) next s fun c =>
      c = s.setReg dst
        (((BitVec.ofNat w.bits (s.memory.readWord a w.bytes)).signExtend 32).setWidth 64) :=
  (executes_movsx (readsRm_mem ha hfaults)).mono fun _ c hc => by
    rw [hc, merge_dword, loaded, low_signExtend]

theorem executes_loadWide {wide : Bool} (ha : s.effectiveAddress m next = a)
    (hfaults : s.faultsAt a (Width.ofWide wide).bytes = false) :
    Executes (Instr.load wide dst m).decoded next s fun c =>
      c = s.setReg dst (s.loaded a (Width.ofWide wide).bytes) :=
  (executes_mov (readsRm_mem ha hfaults).source).mono fun _ c hc => by
    rw [hc, merge_ofWide, low_loaded (Nat.le_refl _)]

theorem executes_loadInstr (kind : Kind) (ha : s.effectiveAddress m next = a)
    (hfaults : s.faultsAt a kind.size = false) :
    Executes (loadInstr kind dst m).decoded next s fun c =>
      c = s.setReg dst (kind.read (s.memory.readWord a kind.size)) := by
  have hf : ∀ w : Width, w.bytes = kind.size → s.faultsAt a w.bytes = false :=
    fun w hw => hw ▸ hfaults
  cases kind with
  | boolean => exact executes_loadZero (by decide) ha (hf .byte rfl)
  | char => exact executes_loadZero (by decide) ha (hf .word rfl)
  | byte => exact executes_loadSigned ha (hf .byte rfl)
  | short => exact executes_loadSigned ha (hf .word rfl)
  | int | float => exact executes_loadWide ha (hf .dword rfl)
  | long | double | object => exact executes_loadWide ha (hf .qword rfl)

/-- The low bytes of a register are those of its value. -/
theorem toNat_low (v : Word) (w : Width) : (low v w).toNat = v.toNat % 256 ^ w.bytes := by
  have hlt : v.toNat % 2 ^ w.bits < 2 ^ 64 :=
    Nat.lt_of_lt_of_le (Nat.mod_lt _ (Nat.two_pow_pos _))
      (Nat.pow_le_pow_right (by decide) w.bits_le)
  rw [low, BitVec.toNat_setWidth, BitVec.toNat_setWidth, Nat.mod_eq_of_lt hlt,
    show 256 = 2 ^ 8 from rfl, ← Nat.pow_mul]
  rfl

/-- The bytes of a store are those of the register. -/
theorem executes_storeAt {src : Gpr} {n : Nat} (hn : w.bytes = n)
    (ha : s.effectiveAddress m next = a) (hfaults : s.faultsAt a n = false) :
    Executes (.mov w (.mem m) (.rm (.reg src))) next s fun c =>
      ∃ v, v.toNat % 256 ^ n = (s.reg src).toNat % 256 ^ n ∧ c = s.stored a n v := by
  subst hn
  refine (executes_store (readsRm_reg src w).source ha hfaults).mono fun _ c hc => ⟨_, ?_, hc⟩
  rw [toNat_low, Nat.mod_mod]

theorem executes_storeInstr (kind : Kind) (src : Gpr) (ha : s.effectiveAddress m next = a)
    (hfaults : s.faultsAt a kind.size = false) :
    Executes (storeInstr kind src m).decoded next s fun c =>
      ∃ v, v.toNat % 256 ^ kind.size = (s.reg src).toNat % 256 ^ kind.size ∧
      c = s.stored a kind.size v := by
  cases kind with
  | boolean | byte => exact executes_storeAt (w := .byte) rfl ha hfaults
  | char | short => exact executes_storeAt (w := .word) rfl ha hfaults
  | int | float => exact executes_storeAt (w := .dword) rfl ha hfaults
  | long | double | object => exact executes_storeAt (w := .qword) rfl ha hfaults

end Accesses

section Steps

variable {A : Machine → Prop} {kind : Kind}

/-- The place can be accessed. -/
abbrev CanAccess (S : Site) (l : Location) (n : Nat) (s : Machine) : Prop :=
  s.faultsAt (S.place s l) n = false

theorem withMem_loadInstr (kind : Kind) (dst : Gpr) (m m' : Mem) :
    (loadInstr kind dst m).withMem m' = loadInstr kind dst m' := by
  cases kind <;> rfl

theorem withMem_storeInstr (kind : Kind) (src : Gpr) (m m' : Mem) :
    (storeInstr kind src m).withMem m' = storeInstr kind src m' := by
  cases kind <;> rfl

theorem computes_loadGpr {dst : Gpr} (hl : l.Valid) (hfixed : l.Fixed) :
    Computes S C (loadGpr kind dst l) (CanAccess S l kind.size) fun _ s c =>
      c = s.setReg dst (kind.read (s.memory.readWord (S.place s l) kind.size)) :=
  computes_emitAt hl hfixed (mem?_loadInstr kind dst) (withMem_loadInstr kind dst)
    (fun _ _ _ hfaults ha => executes_loadInstr kind ha hfaults) fun _ _ h => by rw [h]; rfl

/-- The bytes of a scalar float. -/
theorem bytes_laneWidth {kind : Kind} (h : kind.isFloating = true) :
    (laneWidth kind.isDouble).bytes = kind.size :=
  bytes_ofWide_isDouble h

theorem read_isFloating {kind : Kind} (h : kind.isFloating = true) (n : Nat) :
    kind.read n = BitVec.ofNat 64 n := by
  cases kind <;> first | rfl | cases h

theorem computes_loadXmm {dst : Xmm} (hl : l.Valid) (hfixed : l.Fixed) :
    Computes S C (loadXmm kind dst l) (CanAccess S l kind.size) fun _ s c =>
      c = s.setXmm dst ((kind.read (s.memory.readWord (S.place s l) kind.size)).setWidth 128) := by
  unfold loadXmm
  split
  · rename_i hkind
    refine computes_emitAt hl hfixed (fun _ => rfl) (fun _ _ => rfl) (fun c m next hfaults ha => ?_)
      fun _ _ h => by rw [h]; rfl
    have hbytes := bytes_laneWidth hkind
    refine (executes_movsLoad (readsLane_mem ha (hbytes ▸ hfaults))).mono fun _ c' hc => ?_
    rw [hc, hbytes, read_isFloating hkind]
    rfl
  · exact computes_of_fails (fails_unhandled _)

/-- What a store needs. -/
structure CanStore (S : Site) (l : Location) (n : Nat) (s : Machine) : Prop where
  access : CanAccess S l n s
  clear : S.Clear (S.place s l) n

/-- A store that is clear of the image. -/
theorem CanStore.loads {n : Nat} {s : Machine} (h : CanStore S l n s) {v : Word}
    (hloads : S.Loads s) :
    S.Loads (s.stored (S.place s l) n v) :=
  h.clear.loads (G := fun _ => False) (X := fun _ => False) hloads (keeps_stored (fun _ hb => hb) v)

theorem computes_storeGpr {src : Gpr} (hl : l.Valid) (hfixed : l.Fixed) :
    Computes S C (storeGpr kind src l) (CanStore S l kind.size) fun _ s c =>
      ∃ v, v.toNat % 256 ^ kind.size = (s.reg src).toNat % 256 ^ kind.size ∧
        c = s.stored (S.place s l) kind.size v := by
  refine computes_store hl hfixed (mem?_storeInstr kind src) (withMem_storeInstr kind src)
    (fun _ _ _ h ha => executes_storeInstr kind src ha h.access) ?_
  rintro s c h ⟨v, -, rfl⟩ hloads
  exact h.loads hloads

theorem computes_storeXmm {src : Xmm} (hl : l.Valid) (hfixed : l.Fixed) :
    Computes S C (storeXmm kind src l) (CanStore S l kind.size) fun _ s c =>
      ∃ v, v.toNat % 256 ^ kind.size = ((s.xmmReg src).setWidth 64).toNat % 256 ^ kind.size ∧
        c = s.stored (S.place s l) kind.size v := by
  unfold storeXmm
  split
  · rename_i hkind
    refine computes_store hl hfixed (fun _ => rfl) (fun _ _ => rfl) (fun c m next h ha => ?_) ?_
    · have hbytes := bytes_laneWidth hkind
      refine (executes_movsStore ha (hbytes ▸ h.access)).mono fun _ c' hc => ⟨_, ?_, hbytes ▸ hc⟩
      rw [toNat_low, hbytes, Nat.mod_mod]
    · rintro s c h ⟨v, -, rfl⟩ hloads
      exact h.loads hloads
  · exact computes_of_fails (fails_unhandled _)

/-- A word of the data section is loaded. -/
theorem loaded_data {s : Machine} {offset : Nat} {a : Word} (hloads : S.Loads s)
    (hdata : S.HasData offset (leBytes 8 a.toNat)) : s.loaded (S.dataAddress offset) 8 = a := by
  have hread := Site.readWord_image hloads hdata
  rw [ofLeBytes_leBytes, length_leBytes] at hread
  have hlt := a.isLt
  apply BitVec.eq_of_toNat_eq
  rw [loaded, BitVec.toNat_ofNat]
  exact (congrArg (· % 2 ^ 64) hread).trans (by omega)

/-- The address of an object, as the resolver gives it. -/
theorem computes_objectToRegister (o : ObjectId) (dst : Gpr) :
    Computes S C (objectToRegister o dst) S.Readable fun _ s c =>
      ∃ a, S.resolver.object o = some a ∧ c = s.setReg dst a := by
  unfold objectToRegister
  refine finds_get.computes fun d _ => ?_
  split
  · refine runs_embed fun s c a next hloads hc ha => ?_
    obtain ⟨rfl, -⟩ := hc
    exact ((executes_movAbs dst a).loads hloads fun _ _ h => by rw [h]; rfl).mono fun _ _ h =>
      ⟨h.1, a, ha, h.2⟩
  · refine runs_slot fun offset =>
      Runs.discard (runs_emitAt (valid_ofData offset) (fixed_ofData offset) (fun _ => rfl)
      (fun _ _ => rfl) fun s c m next _ hloads hc haddress => ?_)
    obtain ⟨⟨rfl, hreadable⟩, a, ha, hdata⟩ := hc
    have hfaults := hreadable.data hdata (by simp [leBytes])
    have hload : Executes (Instr.load true dst m).decoded next c fun c' => c' = c.setReg dst _ :=
      executes_loadWide haddress hfaults
    refine (hload.loads hloads fun _ _ h => by rw [h]; rfl).mono fun _ c' h => ⟨h.1, a, ha, ?_⟩
    rw [h.2]
    exact congrArg (c.setReg dst) (loaded_data hloads hdata)

end Steps

/-! ### Constants -/

section Constants

variable {c : Constant} {k : Kind} {r : Register}

theorem value?_object {o : ObjectId} (h : c.object? = some o) (frame : Frame) (s : Machine) :
    S.value? frame s (.const c) = S.resolver.object o := by
  rw [Site.value?, h]

theorem value?_bits (h : c.object? = none) (frame : Frame) (s : Machine) :
    S.value? frame s (.const c) = some c.bits.toBitVec := by
  rw [Site.value?, h]

/-- An object is a word. -/
theorem size_of_object? {o : ObjectId} (h : c.object? = some o) : c.kind = .object := by
  unfold Constant.object? at h
  split at h
  · rename_i hkind
    simpa [Kind.isObject] using hkind
  · cases h

theorem object?_of_isFloating (h : c.kind.isFloating = true) : c.object? = none := by
  have hobject : c.kind.isObject = false := by
    revert h
    cases c.kind <;> decide
  rw [Constant.object?, hobject, if_neg Bool.false_ne_true]

/-- The low half of a pattern as a number of its own. -/
theorem toBitVec_low32 (c : Constant) : c.low32.toUInt64.toBitVec = low c.bits.toBitVec .dword := by
  refine BitVec.eq_of_toNat_eq ?_
  rw [toNat_low]
  simp [Constant.low32, Width.bytes]

/-- A pattern without a bit is zero at the width of its kind. -/
theorem low_of_isZeroBits (h : c.isZeroBits = true) :
    low (0 : Word) c.kind.width = low c.bits.toBitVec c.kind.width := by
  have hhalf : (c.low32 == 0) = true → low (0 : Word) .dword = low c.bits.toBitVec .dword := by
    intro hzero
    rw [← toBitVec_low32, eq_of_beq hzero]
    rfl
  have hfull : (c.bits == 0) = true → low (0 : Word) .qword = low c.bits.toBitVec .qword := by
    intro hzero
    rw [eq_of_beq hzero]
    rfl
  obtain ⟨kind, bits⟩ := c
  cases kind with
  | long | double | object => exact hfull h
  | _ => exact hhalf h

theorem width_of_size {kind : Kind} (h : kind.size = 8) : kind.width = .qword := by
  rw [Kind.width, h]
  rfl

theorem width_of_size_ne {kind : Kind} (h : kind.size ≠ 8) : kind.width = .dword := by
  rw [Kind.width, beq_false_of_ne h]
  rfl

/-- The bits of a constant from the data section. -/
theorem computes_loadBits {x : Xmm} {frame : Frame} {keepFlags : Bool} {bytes : List UInt8}
    {align : Nat} (hx : Xmm.ofRegister? r = some x) (hfloating : c.kind.isFloating = true)
    (hlen : bytes.length = c.kind.size)
    (hbytes : low (BitVec.ofNat 64 (ofLeBytes bytes)) c.kind.width =
      low c.bits.toBitVec c.kind.width) :
    Computes S C (do
      let offset ← onData (·.constant bytes align)
      discard (emitAt (.ofData offset) (.movsLoad c.kind.isDouble x))) S.Readable
      fun _ => S.Moved frame (.const c) (.reg r c.kind) keepFlags := by
  refine runs_constant fun offset =>
    Runs.discard (runs_emitAt (valid_ofData offset) (fixed_ofData offset)
    (fun _ => rfl) (fun _ _ => rfl) fun s s' m next _ hloads hs haddress => ?_)
  obtain ⟨⟨rfl, hreadable⟩, hdata⟩ := hs
  have hpos := c.kind.size_pos
  have hfaults := hreadable.data hdata (List.length_pos_iff.mp (by omega))
  have hwidth := bytes_laneWidth hfloating
  rw [hlen, ← hwidth] at hfaults
  refine ((executes_movsLoad (readsLane_mem haddress hfaults)).loads hloads
    fun _ _ h => by rw [h]; rfl).mono
    fun _ c' h =>
      ⟨h.1, _, value?_bits (object?_of_isFloating hfloating) frame s', ?_,
        fun _ => by rw [h.2]; rfl⟩
  rw [h.2]
  refine Site.delivers_setXmm hx ?_
  rw [loaded, hwidth, ← hlen]
  have hread : s'.memory.readWord (S.place s' (.ofData offset)) bytes.length = ofLeBytes bytes :=
    Site.readWord_image hloads hdata
  rw [hread, BitVec.setWidth_setWidth_of_le _ (by decide), BitVec.setWidth_eq]
  exact hbytes

theorem computes_constantToXmm {x : Xmm} {frame : Frame} {keepFlags : Bool}
    (hx : Xmm.ofRegister? r = some x) (hk : k = c.kind) :
    Computes S C (constantToXmm c x) S.Readable fun _ =>
      S.Moved frame (.const c) (.reg r k) keepFlags := by
  subst hk
  unfold constantToXmm
  dsimp only
  split
  · exact computes_of_fails (fails_unhandled _)
  · rename_i hfloating
    have hfloating : c.kind.isFloating = true := by simpa using hfloating
    split
    · rename_i hzero
      refine (computes_emit (i := .packed .xor c.kind.isDouble x (.reg x))
        (Instr.encodable_of_none rfl)
        (fun _ _ _ => executes_clearXmm) fun _ _ h => by
        rw [h]; rfl).mono fun s _ hs => ⟨hs, fun _ c' hc => ?_⟩
      subst hc
      exact ⟨_, value?_bits (object?_of_isFloating hfloating) frame s,
        Site.delivers_setXmm hx (low_of_isZeroBits hzero), fun _ => rfl⟩
    · have hdouble : ∀ b, c.kind.isDouble = b → Computes S C (do
          let offset ← onData fun d => if b then d.doubleBits c.bits else d.floatBits c.low32
          discard (emitAt (.ofData offset) (.movsLoad c.kind.isDouble x))) S.Readable
            fun _ => S.Moved frame (.const c) (.reg r c.kind) keepFlags := by
        rintro b hb
        have hkind : c.kind = if b then .double else .float := by
          subst hb
          cases hk : c.kind <;> first | rfl | (rw [hk] at hfloating; cases hfloating)
        cases b with
        | true =>
          refine computes_loadBits hx hfloating (by rw [hkind]; rfl) ?_
          have hbytes : ofLeBytes (leBytes 8 c.bits.toNat) = c.bits.toNat :=
            (ofLeBytes_leBytes ..).trans (Nat.mod_eq_of_lt c.bits.toNat_lt)
          rw [hbytes]
          exact congrArg (low · _) (BitVec.ofNat_toNat ..)
        | false =>
          refine computes_loadBits hx hfloating (by rw [hkind]; rfl) ?_
          have hbytes : ofLeBytes (leBytes 4 c.low32.toNat) = c.low32.toNat :=
            (ofLeBytes_leBytes ..).trans (Nat.mod_eq_of_lt c.low32.toNat_lt)
          rw [hbytes, hkind]
          have hword : BitVec.ofNat 64 c.low32.toNat = c.low32.toUInt64.toBitVec :=
            BitVec.eq_of_toNat_eq (by
              have := c.low32.toNat_lt
              simp only [BitVec.toNat_ofNat, UInt64.toNat_toBitVec, UInt32.toNat_toUInt64]
              omega)
          rw [hword, toBitVec_low32]
          exact low_low _ .dword
      exact hdouble _ rfl

theorem computes_constantToRegister {frame : Frame} {keepFlags : Bool} (hk : k = c.kind) :
    Computes S C (constantToRegister c r keepFlags) S.Readable
      fun _ => S.Moved frame (.const c) (.reg r k) keepFlags := by
  subst hk
  unfold constantToRegister
  split
  · rename_i x hx
    exact computes_constantToXmm hx rfl
  · exact computes_of_fails (fails_unhandled _)
  · rename_i g _ hg
    split
    · rename_i o ho
      refine (computes_objectToRegister o g).mono fun s _ hs => ⟨hs, ?_⟩
      rintro _ _ ⟨a, ha, rfl⟩
      exact ⟨a, (value?_object ho frame s).trans ha, Site.delivers_setReg hg rfl, fun _ => rfl⟩
    · rename_i ho
      have hvalue := fun s => value?_bits (S := S) ho frame s
      split
      · rename_i hzero
        obtain ⟨hzero, hkeep⟩ : c.isZeroBits = true ∧ keepFlags = false := by simpa using hzero
        refine (computes_zero g).mono fun s _ hs => ⟨hs, ?_⟩
        rintro _ _ ⟨flags, rfl⟩
        have hdst : gpr? (.reg r c.kind) = some g := hg
        refine ⟨_, hvalue s, Site.delivers_gpr hdst (low_of_isZeroBits hzero) flags, fun h => ?_⟩
        cases hkeep.symm.trans h
      · have hmove : ∀ (wide : Bool) (value : UInt64), c.kind.width = .ofWide wide →
            low value.toBitVec (.ofWide wide) = low c.bits.toBitVec (.ofWide wide) →
            Computes S C (emit (.movImm wide g value)) S.Readable
              fun _ => S.Moved frame (.const c) (.reg r c.kind) keepFlags := by
          intro wide value hwidth hlow
          refine (computes_movImm wide g value).mono fun s _ hs => ⟨hs, ?_⟩
          rintro _ _ rfl
          refine ⟨_, hvalue s, Site.delivers_setReg hg ?_, fun _ => rfl⟩
          change low _ c.kind.width = low _ c.kind.width
          rw [hwidth, low_low, hlow]
        split
        · rename_i hsize
          exact hmove true _ (width_of_size hsize) rfl
        · rename_i hsize
          refine hmove false _ (width_of_size_ne hsize) ?_
          rw [toBitVec_low32]
          exact low_low _ .dword

end Constants

/-! ### Moves -/

section Moves

variable {frame : Frame} {dst : Operand} {kind : Kind} {r : Register}
  {c : Constant} {keepFlags : Bool}

/-- Copies of registers. A 64-bit float in a general register is no value that the copy keeps. -/
theorem computes_registerToRegister {A : Machine → Prop} {r' : Register}
    (hdst : (Operand.reg r' kind).Exists)
    (hdouble : ∀ g, Gpr.ofRegister? r = some g → kind ≠ .double) :
    Computes S C (registerToRegister r r' kind) A fun _ =>
      S.Moved frame (.reg r kind) (.reg r' kind) keepFlags := by
  unfold registerToRegister
  split
  · rename_i heq
    subst heq
    refine runs_pure () fun s c _ hc => ?_
    obtain ⟨rfl, -⟩ := hc
    obtain ⟨v, hv, hdelivers⟩ := Site.delivers_self hdst
    exact ⟨v, hv, hdelivers, fun _ => rfl⟩
  · split
    · rename_i g g' hg hg'
      have hwidth : kind.width = .ofWide kind.isWord := by
        revert hdouble
        cases kind <;> simp [hg] <;> rfl
      refine (computes_emit (i := .mov kind.isWord g' g) (Instr.encodable_of_none rfl)
        (fun s _ _ => executes_mov (readsRm_reg g (.ofWide kind.isWord)).source) fun _ _ h => by
        rw [h]; rfl).mono
        fun s _ _ => ⟨trivial, ?_⟩
      rintro _ c rfl
      refine ⟨_, Site.value?_gpr hg, Site.delivers_setReg hg' ?_, fun _ => rfl⟩
      rw [merge_ofWide, low_low]
      change low _ kind.width = low _ kind.width
      rw [hwidth, low_low]
    · split
      · rename_i x x' hx hx'
        refine (computes_emit (i := .movap kind.isDouble x' x) (Instr.encodable_of_none rfl)
          (fun s _ _ => executes_movap) fun _ _ h => by rw [h]; rfl).mono fun s _ _ => ⟨trivial, ?_⟩
        rintro _ c rfl
        exact ⟨_, Site.value?_xmm hx, Site.delivers_setXmm hx' rfl, fun _ => rfl⟩
      · exact computes_of_fails (fails_unhandled _)
    · exact computes_of_fails (fails_unhandled _)

/-- What a move needs: the operands can be accessed, and it does not store to the image. -/
structure CanMove (S : Site) (frame : Frame) (src dst : Operand) (s : Machine) : Prop where
  readable : S.Readable s
  source : S.Accessible frame s src
  target : S.Accessible frame s dst
  clear : ∀ l, place? frame dst = some l → S.Clear (S.place s l) dst.kind.size

theorem CanMove.store {src : Operand} {s : Machine} (h : CanMove S frame src dst s)
    (hl : place? frame dst = some l) : CanStore S l dst.kind.size s :=
  ⟨h.target l hl, h.clear l hl⟩

theorem computes_load {src : Operand} (hl : place? frame src = some l) (hvalid : l.Valid)
    (hk : kind = src.kind) :
    Computes S C (load kind r l) (S.Accessible frame · src) fun _ =>
      S.Moved frame src (.reg r kind) keepFlags := by
  subst hk
  unfold load
  split
  · rename_i g _ hg
    refine (computes_loadGpr hvalid (fixed_of_place? hl)).mono fun s _ hs => ⟨hs l hl, ?_⟩
    rintro _ c rfl
    exact ⟨_, Site.value?_place hl, Site.delivers_setReg hg rfl, fun _ => rfl⟩
  · rename_i x _ hx
    refine (computes_loadXmm hvalid (fixed_of_place? hl)).mono fun s _ hs => ⟨hs l hl, ?_⟩
    rintro _ c rfl
    refine ⟨_, Site.value?_place hl, Site.delivers_setXmm hx ?_, fun _ => rfl⟩
    rw [BitVec.setWidth_setWidth_of_le _ (by decide), BitVec.setWidth_eq]
  · exact computes_of_fails (fails_unhandled _)

theorem computes_storeRegister (hl : place? frame dst = some l) (hvalid : l.Valid) :
    Computes S C (store dst.kind r l) (CanStore S l dst.kind.size)
      fun _ => S.Moved frame (.reg r kind) dst keepFlags := by
  unfold store
  split
  · rename_i g _ hg
    refine (computes_storeGpr hvalid (fixed_of_place? hl)).mono fun s _ hs => ⟨hs, ?_⟩
    rintro _ _ ⟨v, hv, rfl⟩
    exact ⟨_, Site.value?_gpr hg, Site.delivers_stored hl hv (.refl s), fun _ => rfl⟩
  · rename_i x _ hx
    refine (computes_storeXmm hvalid (fixed_of_place? hl)).mono fun s _ hs => ⟨hs, ?_⟩
    rintro _ _ ⟨v, hv, rfl⟩
    exact ⟨_, Site.value?_xmm hx, Site.delivers_stored hl hv (.refl s), fun _ => rfl⟩
  · exact computes_of_fails (fails_unhandled _)

/-- A value goes through the scratch register to memory. -/
theorem computes_throughScratch {x : Lower β} {A : Machine → Prop} {f : Machine → Word → Prop}
    (hscratch : l.mem.uses scratch = false) (hvalid : l.Valid) (hl : place? frame dst = some l)
    (hkind : kind.size = dst.kind.size)
    (hx : Computes S C x A fun _ s c => ∃ v, f s v ∧ c = s.setReg scratch v) :
    Computes S C (x >>= fun _ => storeGpr kind scratch l)
      (fun s => A s ∧ CanStore S l dst.kind.size s)
      fun _ s c => ∃ v, f s v ∧ S.Delivers frame dst v s c ∧ c.flags = s.flags := by
  have hx' : Computes S C x (fun s => A s ∧ CanStore S l dst.kind.size s)
      fun _ s c => ∃ v, f s v ∧ c = s.setReg scratch v :=
        hx.mono fun _ _ hs => ⟨hs.1, fun _ _ => id⟩
  refine hx'.bind (fun _ => computes_storeGpr hvalid (fixed_of_place? hl)) ?_
  rintro s _ _ ⟨-, hstore⟩ ⟨v, hv, rfl⟩
  have hkeeps : s.Keeps (· = scratch) (fun _ => False) (fun _ => False) (s.setReg scratch v) :=
    keeps_setReg (G := (· = scratch)) rfl v
  have hplace : S.place (s.setReg scratch v) l = S.place s l := hkeeps.place S fun g hg h => by
    rw [h, hscratch] at hg
    cases hg
  rw [hkind, hplace]
  refine ⟨⟨?_, hplace ▸ hstore.clear⟩, ?_⟩
  · rw [CanAccess, hplace, hkeeps.faultsAt]
    exact hstore.access
  · rintro _ _ ⟨v', hv', rfl⟩
    rw [reg_setReg_self] at hv'
    exact ⟨v, hv, Site.delivers_stored hl hv' hkeeps, rfl⟩

/-- A word as the sign extension of an immediate, at its low bytes. -/
theorem toNat_signedAt (w : Width) (v : Int) :
    (BitVec.ofInt 64 (Instr.signedAt w v)).toNat % 256 ^ w.bytes =
      (v % (2 ^ w.bits : Nat)).toNat := by
  have hpow : 256 ^ w.bytes = 2 ^ w.bits := by
    rw [show 256 = 2 ^ 8 from rfl, ← Nat.pow_mul]
    rfl
  have hdvd : ((2 ^ w.bits : Nat) : Int) ∣ ((2 ^ 64 : Nat) : Int) :=
    Int.natCast_dvd_natCast.mpr (Nat.pow_dvd_pow 2 w.bits_le)
  have hpos : (0 : Int) < (2 ^ w.bits : Nat) := by exact_mod_cast Nat.two_pow_pos _
  rw [hpow, BitVec.toNat_ofInt, Instr.signedAt]
  refine Int.ofNat_inj.mp ?_
  rw [Int.natCast_emod, Int.toNat_of_nonneg (Int.emod_nonneg _ (by decide)),
    Int.emod_emod_of_dvd _ hdvd, Int.toNat_of_nonneg (Int.emod_nonneg _ (by omega))]
  exact_mod_cast Int.bmod_emod

theorem computes_storeImm {w : Width} {imm : Int32} {v : Word} (hl : place? frame dst = some l)
    (hvalid : l.Valid) (hw : w.bytes = dst.kind.size)
    (hv : (imm.toInt % (2 ^ w.bits : Nat)).toNat = v.toNat % 256 ^ w.bytes) :
    Computes S C (emitAt l (.storeImm w · imm)) (CanStore S l dst.kind.size)
      fun _ s c => S.Delivers frame dst v s c ∧ c.flags = s.flags := by
  have hstore :
      Computes S C (emitAt l (.storeImm w · imm)) (CanStore S l dst.kind.size) fun _ s c =>
      c = s.stored (S.place s l) dst.kind.size (BitVec.ofInt 64 (Instr.signedAt w imm.toInt)) := by
    refine computes_store (i := (.storeImm w · imm)) hvalid (fixed_of_place? hl)
      (fun _ => rfl) (fun _ _ => rfl)
      (fun s m next h ha => ?_) ?_
    · rw [← hw]
      exact executes_store (readsSource_imm _ w) ha (hw ▸ h.access)
    · rintro s _ h rfl hloads
      exact h.loads hloads
  refine hstore.mono fun s _ hs => ⟨hs, ?_⟩
  rintro _ _ rfl
  refine ⟨Site.delivers_stored hl ?_ (.refl s), rfl⟩
  rw [← hw, toNat_signedAt, hv]

/-- The low bytes of a constant, from its signed form at operand size 32 or 64. -/
theorem toNat_toInt32 (c : Constant) {w : Width} (hw : w.bits ≤ 32) :
    (c.toInt32.toInt % (2 ^ w.bits : Nat)).toNat = c.bits.toBitVec.toNat % 256 ^ w.bytes := by
  have hpow : 256 ^ w.bytes = 2 ^ w.bits := by
    rw [show 256 = 2 ^ 8 from rfl, ← Nat.pow_mul]
    rfl
  have hdvd : 2 ^ w.bits ∣ 2 ^ 32 := Nat.pow_dvd_pow 2 hw
  have hlow : c.toInt32.toInt = ((c.bits.toNat % 2 ^ 32 : Nat) : Int).bmod (2 ^ 32) := by
    have hword : c.toInt32.toInt = (c.bits.toBitVec.setWidth 32).toInt := rfl
    rw [hword, BitVec.toInt_eq_toNat_bmod, BitVec.toNat_setWidth]
    rfl
  rw [hlow, hpow, ← Int.emod_emod_of_dvd _ (Int.natCast_dvd_natCast.mpr hdvd), Int.bmod_emod,
    Int.emod_emod_of_dvd _ (Int.natCast_dvd_natCast.mpr hdvd),
    ← Int.natCast_emod, Int.toNat_natCast, Nat.mod_mod_of_dvd _ hdvd]
  rfl

theorem toNat_toInt64 {c : Constant} {imm : Int32} (h : int32? c.toInt64.toInt = some imm) :
    (imm.toInt % (2 ^ 64 : Nat)).toNat = c.bits.toBitVec.toNat := by
  have hword : c.toInt64.toInt = c.bits.toBitVec.toInt := rfl
  rw [toInt_of_int32? h, hword, BitVec.toInt_eq_toNat_bmod, Int.bmod_emod,
    ← Int.natCast_emod, Int.toNat_natCast]
  exact Nat.mod_eq_of_lt c.bits.toBitVec.isLt

theorem computes_constantToMemory (hl : place? frame dst = some l) (hvalid : l.Valid)
    (hscratch : l.mem.uses scratch = false) (hk : dst.kind = c.kind) :
    Computes S C (constantToMemory c dst.kind l)
      (fun s => S.Readable s ∧ CanStore S l dst.kind.size s)
      fun _ => S.Moved frame (.const c) dst keepFlags := by
  unfold constantToMemory
  split
  · rename_i o ho
    have hkind : Kind.object = dst.kind := (hk.trans (size_of_object? ho)).symm
    refine (computes_throughScratch hscratch hvalid hl (by rw [hkind])
      (computes_objectToRegister o scratch)).mono
      fun s _ hs => ⟨hs, ?_⟩
    rintro _ c' ⟨v, hv, hdelivers, hflags⟩
    exact ⟨v, (value?_object ho frame s).trans hv, hdelivers, fun _ => hflags⟩
  · rename_i ho
    have hvalue := fun s => value?_bits (S := S) ho frame s
    split
    · rename_i hsize
      split
      · rename_i imm himm
        refine (computes_storeImm (w := .qword) (v := c.bits.toBitVec) hl hvalid hsize.symm ?_).mono
          fun s _ hs => ⟨hs.2, ?_⟩
        · exact (toNat_toInt64 himm).trans (Nat.mod_eq_of_lt c.bits.toBitVec.isLt).symm
        · rintro _ c' ⟨hdelivers, hflags⟩
          exact ⟨_, hvalue s, hdelivers, fun _ => hflags⟩
      · refine (computes_throughScratch (f := fun _ v => v = c.bits.toBitVec) hscratch hvalid hl
          (by rw [hsize]; rfl)
          ((computes_movImm true scratch c.bits).mono fun s _ hs => ⟨hs, ?_⟩)).mono
            fun s _ hs => ⟨hs, ?_⟩
        · rintro _ c' rfl
          exact ⟨_, low_qword _, rfl⟩
        · rintro _ c' ⟨v, rfl, hdelivers, hflags⟩
          exact ⟨_, hvalue s, hdelivers, fun _ => hflags⟩
    · rename_i hsize
      obtain ⟨hwidth, hle⟩ : (Width.ofBytes dst.kind.size).bytes = dst.kind.size ∧
          (Width.ofBytes dst.kind.size).bits ≤ 32 := by
        revert hsize
        cases dst.kind <;> simp [Kind.size, Width.ofBytes, Width.bytes, Width.bits]
      refine (computes_storeImm hl hvalid hwidth (toNat_toInt32 c hle)).mono
        fun s _ hs => ⟨hs.2, ?_⟩
      rintro _ c' ⟨hdelivers, hflags⟩
      exact ⟨_, hvalue s, hdelivers, fun _ => hflags⟩

theorem needsScratch_of_object {c : Constant} {o : ObjectId}
    (h : c.object? = some o) : needsScratch c = true := by
  obtain ⟨kind, bits⟩ := c
  obtain rfl : kind = .object := size_of_object? h
  have hbits : (bits == 0) = false := by
    cases hzero : bits == 0 with
    | false => rfl
    | true => simp [Constant.object?, Constant.objectBits?, Kind.isObject, hzero] at h
  simp [needsScratch, Constant.isNull, hbits]

/-- A constant that fits no immediate. -/
theorem needsScratch_of_wide {c : Constant} (ho : c.object? = none) (hsize : c.kind.size = 8)
    (himm : int32? c.toInt64.toInt = none) : needsScratch c = true := by
  obtain ⟨kind, bits⟩ := c
  cases kind with
  | long | double => exact congrArg Option.isNone himm
  | object =>
    -- The null reference fits.
    have hbits : bits = 0 := by
      cases hzero : bits == 0 with
      | true => exact eq_of_beq hzero
      | false => simp [Constant.object?, Constant.objectBits?, Kind.isObject, hzero] at ho
    subst hbits
    cases himm
  | _ => cases hsize

/-- A move of a value of one kind. A 64-bit float in a general register is left out. -/
theorem computes_mov {src : Operand} (hkind : dst.kind = src.kind) (hexists : dst.Exists)
    (hdouble : ∀ g, gpr? src = some g → src.kind ≠ .double)
    (hscratch : ∀ l, place? C.frame dst = some l → l.mem.uses scratch = false) :
    Computes S C (mov src dst keepFlags) (CanMove S C.frame src dst) fun _ =>
      S.Moved C.frame src dst keepFlags := by
  unfold mov
  split
  · exact computes_of_fails (fails_unhandled _)
  · split
    · exact computes_of_fails (fails_unhandled _)
    · rename_i s kind d kind' _
      obtain rfl : kind' = kind := hkind
      exact (computes_registerToRegister hexists hdouble).mono fun s _ hs =>
        ⟨trivial, fun _ _ => id⟩
    · refine (finds_location dst).computes fun l hl => Computes.discard ?_
      exact (computes_storeRegister hl.1 hl.2).mono fun s _ hs => ⟨hs.store hl.1, fun _ _ => id⟩
    · exact (computes_constantToRegister hkind).mono fun s _ hs => ⟨hs.readable, fun _ _ => id⟩
    · refine (finds_location dst).computes fun l hl => Computes.discard ?_
      exact (computes_constantToMemory hl.1 hl.2 (hscratch l hl.1) hkind).mono fun s _ hs =>
        ⟨⟨hs.readable, hs.store hl.1⟩, fun _ _ => id⟩
    · rename_i d kind _ _ _
      obtain rfl : kind = src.kind := hkind
      refine (finds_location src).computes fun l hl => Computes.discard ?_
      exact (computes_load hl.1 hl.2 rfl).mono fun s _ hs => ⟨hs.source, fun _ _ => id⟩
    · refine (finds_location src).computes fun source hsource => ?_
      refine (finds_location dst).computes fun target htarget => ?_
      have hload :
          Computes S C (discard (loadGpr src.kind scratch source)) (S.Accessible C.frame · src)
          fun _ s c => ∃ v, S.value? C.frame s src = some v ∧ c = s.setReg scratch v := by
        refine Computes.discard ((computes_loadGpr hsource.2 (fixed_of_place? hsource.1)).mono
          fun s _ hs => ⟨hs source hsource.1, ?_⟩)
        rintro _ c rfl
        exact ⟨_, Site.value?_place hsource.1, rfl⟩
      rw [← Step.discard_bind]
      refine Computes.discard
        ((computes_throughScratch (hscratch target htarget.1) htarget.2 htarget.1 rfl
        hload).mono fun s _ hs => ⟨⟨hs.source, hs.store htarget.1⟩, ?_⟩)
      rintro _ c ⟨v, hv, hdelivers, hflags⟩
      exact ⟨v, hv, hdelivers, fun _ => hflags⟩

/-! ### General registers -/

theorem gpr?_register (g : Gpr) (kind : Kind) : gpr? (.reg g.register kind) = some g :=
  Gpr.ofRegister?_register g

/-- What is read from memory belongs to the kind. -/
theorem low_read (kind : Kind) (m : Memory) (a : Word) :
    low (kind.read (m.readWord a kind.size)) kind.width = kind.read (m.readWord a kind.size) := by
  have hlt := m.readWord_lt a kind.size
  cases kind with
  | byte | short => exact low_extended _
  | _ => exact low_ofNat (Nat.lt_of_lt_of_le hlt (by decide))

/-- A general register has received the operand. From a register it receives a copy at operand size,
if any. -/
def Filled (S : Site) (frame : Frame) (src : Operand) (g : Gpr) : Assertion := fun s c =>
  ∃ flags v, c = { s with flags := flags }.setReg g v ∧
    (S.word? frame s src = some v ∨ ∃ r, gpr? src = some r ∧
      v = low (s.reg r) (.ofWide src.kind.isWord))

theorem filled_of_value? {src : Operand} {g : Gpr} {s : Machine} {v : Word} (flags : Flags)
    (hregister : src.isRegister = false) (hv : S.value? frame s src = some v) :
    Filled S frame src g s ({ s with flags := flags }.setReg g (low v src.kind.width)) :=
  ⟨flags, _, rfl, .inl (Site.word?_of_value? hregister hv)⟩

theorem computes_fill_constant {g : Gpr} :
    Computes S C (constantToRegister c g.register keepFlags) S.Readable
    fun _ => Filled S frame (.const c) g := by
  have hxmm : Xmm.ofRegister? g.register = none := rfl
  unfold constantToRegister
  rw [Gpr.ofRegister?_register, hxmm]
  dsimp only
  split
  · rename_i o ho
    refine (computes_objectToRegister o g).mono fun s _ hs => ⟨hs, ?_⟩
    rintro _ _ ⟨a, ha, rfl⟩
    have hfilled := filled_of_value? (g := g) s.flags rfl ((value?_object ho frame s).trans ha)
    rwa [show (Operand.const c).kind.width = .qword from
      width_of_size (by rw [Operand.kind, size_of_object? ho]; rfl), low_qword] at hfilled
  · rename_i ho
    have hfilled :=
      fun s flags => filled_of_value? (g := g) flags rfl (value?_bits (S := S) ho frame s)
    split
    · rename_i hzero
      obtain ⟨hzero, -⟩ : c.isZeroBits = true ∧ keepFlags = false := by simpa using hzero
      refine (computes_zero g).mono fun s _ hs => ⟨hs, ?_⟩
      rintro _ _ ⟨flags, rfl⟩
      have hzero : low c.bits.toBitVec c.kind.width = 0 := by
        rw [← low_of_isZeroBits hzero]
        cases c.kind.width <;> rfl
      exact hzero ▸ hfilled s flags
    · split
      · rename_i hsize
        refine (computes_movImm true g c.bits).mono fun s _ hs => ⟨hs, ?_⟩
        rintro _ _ rfl
        have hwidth : (Operand.const c).kind.width = .ofWide true := width_of_size hsize
        exact hwidth ▸ hfilled s s.flags
      · rename_i hsize
        refine (computes_movImm false g c.low32.toUInt64).mono fun s _ hs => ⟨hs, ?_⟩
        rintro _ _ rfl
        have hwidth : (Operand.const c).kind.width = .dword := width_of_size_ne hsize
        have hvalue :
            low c.low32.toUInt64.toBitVec (.ofWide false) = low c.bits.toBitVec .dword := by
          rw [toBitVec_low32]
          exact low_low _ .dword
        rw [hvalue]
        exact hwidth ▸ hfilled s s.flags

theorem computes_fill_register {A : Machine → Prop} {g : Gpr} :
    Computes S C (registerToRegister r g.register kind) A fun _ =>
      Filled S frame (.reg r kind) g := by
  unfold registerToRegister
  split
  · rename_i heq
    refine runs_pure () fun s c _ hc => ?_
    obtain ⟨rfl, -⟩ := hc
    subst heq
    exact ⟨c.flags, c.reg g, (setReg_self c g).symm, .inl (Site.word?_gpr (gpr?_register g kind))⟩
  · rw [Gpr.ofRegister?_register]
    split
    · rename_i g' g'' hg' hg''
      cases hg''
      refine (computes_emit (i := .mov kind.isWord g g') (Instr.encodable_of_none rfl)
        (fun s _ _ => executes_mov (readsRm_reg g' (.ofWide kind.isWord)).source) fun _ _ h => by
        rw [h]; rfl).mono
        fun s _ _ => ⟨trivial, ?_⟩
      rintro _ c rfl
      refine ⟨s.flags, _, rfl, .inr ⟨g', hg', ?_⟩⟩
      rw [merge_ofWide, low_low]
      rfl
    · rename_i hnone
      cases hnone
    · exact computes_of_fails (fails_unhandled _)

theorem computes_fill_memory {src : Operand} {g : Gpr} (hl : place? frame src = some l)
    (hvalid : l.Valid) :
    Computes S C (load src.kind g.register l) (S.Accessible frame · src) fun _ =>
      Filled S frame src g := by
  unfold load
  rw [Gpr.ofRegister?_register]
  refine (computes_loadGpr hvalid (fixed_of_place? hl)).mono fun s _ hs => ⟨hs l hl, ?_⟩
  rintro _ _ rfl
  have hvalue := Site.value?_place (S := S) (c := s) hl
  have hfilled := filled_of_value? (g := g) s.flags (Site.isRegister_of_place? hl) hvalue
  rwa [low_read] at hfilled

/-- A move to a general register, whatever the kinds. -/
theorem computes_fill {src : Operand} {g : Gpr} :
    Computes S C (mov src (.reg g.register kind) keepFlags)
    (fun s => S.Readable s ∧ S.Accessible C.frame s src) fun _ => Filled S C.frame src g := by
  cases src with
  | reg r kind' =>
    rw [show mov (.reg r kind') (.reg g.register kind) keepFlags =
      registerToRegister r g.register kind' from by
      simp [mov, inData]]
    exact computes_fill_register
  | const c =>
    rw [show mov (.const c) (.reg g.register kind) keepFlags =
      constantToRegister c g.register keepFlags from by
      simp [mov, inData]]
    exact computes_fill_constant.mono fun s _ hs => ⟨hs.1, fun _ _ => id⟩
  | stack slot kind' | addr a =>
    unfold mov
    refine (finds_location _).computes fun l hl => Computes.discard ?_
    exact (computes_fill_memory hl.1 hl.2).mono fun s _ hs => ⟨hs.2, fun _ _ => id⟩

/-- A register moved to itself needs no code. -/
theorem mov_self {r : Register} {kind kind' : Kind} {keepFlags : Bool} :
    mov (.reg r kind) (.reg r kind') keepFlags = pure () := by
  simp [mov, inData, registerToRegister]

/-- A move to a register stores nothing. -/
theorem canMove_reg {src : Operand} {s : Machine} (hreadable : S.Readable s)
    (hsrc : S.Accessible frame s src) :
    CanMove S frame src (.reg r kind) s := ⟨hreadable, hsrc, nofun, nofun⟩

theorem toScratch_bind {α : Type} (src : Operand) (f : Gpr → Lower α) :
    (toScratch src >>= f) =
      (mov src (.reg scratch.register src.kind) false >>= fun _ => f scratch) := by
  rw [toScratch, bind_assoc]
  rfl

/-- A value in the scratch register, which is all that has changed. -/
theorem computes_toScratch {src : Operand} (hdouble : ∀ g, gpr? src = some g → src.kind ≠ .double) :
    Computes S C (mov src (.reg scratch.register src.kind) keepFlags)
      (fun s => S.Readable s ∧ S.Accessible C.frame s src) fun _ s c =>
      ∃ b, S.value? C.frame s src = some b ∧
      low (c.reg scratch) src.kind.width = low b src.kind.width ∧
        s.Keeps (· = scratch) (fun _ => False) (fun _ => False) c ∧
        (keepFlags = true → c.flags = s.flags) := by
  have hdst := gpr?_register scratch src.kind
  have hkind : (Operand.reg scratch.register src.kind).kind = src.kind := rfl
  refine (computes_mov hkind (fun _ => .inl ⟨scratch, hdst⟩) hdouble nofun).mono fun s _ hs =>
    ⟨canMove_reg hs.1 hs.2, ?_⟩
  rintro _ c ⟨b, hb, hdelivers, hflags⟩
  refine ⟨b, hb, hdelivers.holds.gpr scratch hdst, hdelivers.keeps.mono ?_ ?_ ?_, hflags⟩
  · rintro g (hg | ⟨hreg, -⟩)
    · exact (Option.some.inj (hdst.symm.trans hg)).symm
    · cases hreg
  · exact fun x hx => by cases hx
  · rintro a ⟨l, hl, -⟩
    cases hl

end Moves

end MachineCode.Lower
